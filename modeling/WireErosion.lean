import WireErosion.Job.Step
import WireErosion.Main
import WireErosion.Proofs.CommandLine.PostProcessing
import WireErosion.Proofs.Depth.Rewritten
import WireErosion.Proofs.Depth.Staging
import WireErosion.Proofs.Operation.Admission
import WireErosion.Proofs.Operation.Completion
import WireErosion.Proofs.Operation.Hooks
import WireErosion.Proofs.Operation.WornTabs
import WireErosion.Proofs.Path.Sides
import WireErosion.Proofs.Path.Thinning
import WireErosion.Proofs.Program.Normal
import WireErosion.Proofs.Program.Words
import WireErosion.Proofs.Residue.Frame
import WireErosion.Proofs.Residue.Handles
import WireErosion.Proofs.Residue.Phases
import WireErosion.Proofs.Settings.Saved
import WireErosion.Proofs.Toolpath.Carving
import WireErosion.Proofs.Toolpath.Ramp
import WireErosion.Proofs.Toolpath.TabDepth
import WireErosion.Proofs.Wear.Charge
import WireErosion.Proofs.Wear.Continuity
import WireErosion.Proofs.Wear.Feeds
import WireErosion.Proofs.Wear.Neutral
import WireErosion.Proofs.Wear.Parsed
import WireErosion.Proofs.Wear.Reached
import WireErosion.Proofs.Wear.Values
