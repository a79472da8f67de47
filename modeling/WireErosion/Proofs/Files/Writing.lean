import WireErosion.Proofs.Outcome
import WireErosion.Proofs.Work

/-!
# Writing files

A file can be written if its folder is there and no folder has its name (`FileStore.IsWritable`).
Then it holds the bytes at the end, and every other file holds what it held
(`FileStore.write_of_isWritable`).  Otherwise it cannot be opened, and nothing is touched
(`FileStore.write_of_not_isWritable`).
-/

namespace WireErosion.FileStore

/-! ## Files by name -/

theorem find?_put_of_ne {k l : List String} (hne : l ≠ k) (bytes : ByteArray) :
    ∀ files : List (List String × ByteArray),
      (put k bytes files).find? (fun f => f.1 == l) = files.find? fun f => f.1 == l
  | [] => by simp [put, hne.symm]
  | (m, b) :: files => by
      rw [put]
      split_ifs with hm
      · have hml : ¬ m = l := fun h => hne (h.symm.trans hm)
        simp [hml]
      · rw [List.find?_cons, List.find?_cons, find?_put_of_ne hne bytes files]

theorem find?_put (k : List String) (bytes : ByteArray) :
    ∀ files : List (List String × ByteArray),
      (put k bytes files).find? (fun f => f.1 == k) = some (k, bytes)
  | [] => by simp [put]
  | (m, b) :: files => by
      rw [put]
      split_ifs with hm
      · simp [hm]
      · have hmk : (m == k) = false := beq_eq_false_iff_ne.mpr hm
        rw [List.find?_cons, hmk, find?_put k bytes files]

/-- Of two contents of a file the later one stays. -/
theorem put_put (k : List String) (bytes later : ByteArray) :
    ∀ files : List (List String × ByteArray), put k later (put k bytes files) = put k later files
  | [] => by simp [put]
  | (l, b) :: files => by
      rw [put, put]
      split_ifs with hl
      · rw [put, if_pos hl]
      · rw [put, if_neg hl, put_put k bytes later files]

theorem any_put {bytes : ByteArray} {q : List String → Bool} {k : List String}
    {files : List (List String × ByteArray)} (h : files.any (fun f => q f.1) = true) :
    (put k bytes files).any (fun f => q f.1) = true := by
  induction files with
  | nil => simp at h
  | cons file files ih =>
      rw [List.any_cons, Bool.or_eq_true] at h
      rw [put]
      split_ifs
      · rw [List.any_cons, Bool.or_eq_true]
        exact h
      · rw [List.any_cons, Bool.or_eq_true]
        exact h.imp_right ih

variable {s : FileStore} {n : FileName} {bytes : ByteArray}

/-- A file that can be read is there. -/
theorem contains_of_read (h : s.read n = .ok bytes) : s.contains n = true := by
  unfold read at h
  split at h
  next found => simp [contains, found]
  next => cases h

/-- A name without components is that of a folder. -/
theorem isFolder_of_nil (s : FileStore) (h : n.parts = []) : s.isFolder n = true := by
  have hkey : key n = if n.isAbsolute then ["/"] else [] := by
    simp [key, simplified, h]
  rw [isFolder, isPassable, hkey, h]
  cases n.isAbsolute <;> simp [hasFolder]

/-- The folders that a name steps back from are those that the name of its folder steps back from,
and its folder itself. -/
theorem isPassable_of_isFolder_folder (h : s.isFolder n.folder = true) : s.isPassable n = true := by
  rw [isFolder, Bool.and_eq_true] at h
  obtain ⟨hpassable, hfolder⟩ := h
  simp only [isPassable, FileName.folder, List.all_eq_true, List.mem_range, List.length_dropLast,
    Bool.or_eq_true, bne_iff_ne] at hpassable ⊢
  intro i hi
  -- the last part alone belongs to the name and not to its folder
  by_cases hlast : i < n.parts.length - 1
  · have hstep := hpassable i hlast
    rwa [List.getElem?_dropLast, if_pos hlast, List.dropLast_eq_take, List.take_take,
      Nat.min_eq_left (Nat.le_of_lt hlast)] at hstep
  · have hdrop : n.parts.dropLast = n.parts.take i := by
      rw [List.dropLast_eq_take]
      congr 1
      omega
    right
    rwa [FileName.folder, hdrop] at hfolder

/-! ## Writing -/

/-- Whether a file can be written: its folder is there, and no folder has its name. -/
def IsWritable (s : FileStore) (n : FileName) : Prop :=
  s.isFolder n = false ∧ s.isFolder n.folder = true

/-- Why a file cannot be written. -/
def obstacle (s : FileStore) (n : FileName) : Fault :=
  if s.isFolder n then .isADirectory n.text else s.absence n

/-- The files with one more, or with the bytes of one of them replaced. -/
def holding (s : FileStore) (n : FileName) (bytes : ByteArray) : FileStore :=
  { s with files := put (key n) bytes s.files }

theorem openFile_of_isWritable (h : s.IsWritable n) :
    openFile n s = .ok () (s.holding n .empty) := by
  unfold openFile
  rw [Work.bind_ok (m := get) rfl, if_neg (by simp [h.1]), if_neg (by simp [h.2])]
  rfl

theorem openFile_of_not_isWritable (h : ¬ s.IsWritable n) :
    openFile n s = .error (s.obstacle n) s := by
  unfold openFile obstacle
  rw [Work.bind_ok (m := get) rfl]
  by_cases hfolder : s.isFolder n = true
  · rw [if_pos hfolder, if_pos hfolder]
    rfl
  · have hparent : ¬ s.isFolder n.folder = true :=
      fun hparent => h ⟨Bool.eq_false_iff.mpr hfolder, hparent⟩
    rw [if_neg hfolder, if_neg hfolder]
    dsimp only
    rw [if_pos (by simpa using hparent)]
    rfl

/-- A file that can be written holds at the end what was written, and nothing else is touched. -/
theorem write_of_isWritable (h : s.IsWritable n) (bytes : ByteArray) :
    write n bytes s = .ok () (s.holding n bytes) := by
  rw [write, Work.bind_ok (openFile_of_isWritable h)]
  change EStateM.Result.ok () (FileStore.mk (put (key n) bytes (put (key n) .empty s.files)) _) = _
  rw [put_put]
  rfl

/-- A file that cannot be written is not touched. -/
theorem write_of_not_isWritable (h : ¬ s.IsWritable n) (bytes : ByteArray) :
    write n bytes s = .error (s.obstacle n) s := by
  rw [write, Work.bind_error (openFile_of_not_isWritable h)]

theorem write_eq_ok {t : FileStore} {u : Unit} :
    write n bytes s = .ok u t ↔ s.IsWritable n ∧ t = s.holding n bytes := by
  by_cases hn : s.IsWritable n
  · rw [write_of_isWritable hn]
    simp [hn, eq_comm]
  · rw [write_of_not_isWritable hn]
    simp [hn]

/-- A write that fails does so before it touches a file. -/
theorem keepsOnFault_write (n : FileName) (bytes : ByteArray) :
    Work.KeepsOnFault id (write n bytes) := by
  have hopen : Work.KeepsOnFault id (openFile n) := by
    intro s e t h
    by_cases hn : s.IsWritable n
    · rw [openFile_of_isWritable hn] at h
      cases h
    · rw [openFile_of_not_isWritable hn] at h
      cases h
      rfl
  exact hopen.bind fun _ => Work.neverFails_modify _

/-- Writing replaces one file and leaves the others. -/
theorem bytes?_holding (s : FileStore) (n : FileName) (bytes : ByteArray) :
    (s.holding n bytes).bytes? (key n) = some bytes ∧
      ∀ k, k ≠ key n → (s.holding n bytes).bytes? k = s.bytes? k := by
  refine ⟨?_, fun k hk => ?_⟩
  · rw [bytes?, holding, find?_put]
    rfl
  · rw [bytes?, holding, find?_put_of_ne hk, bytes?]

/-- Writing removes no folder. -/
theorem hasFolder_holding {k : List String} (hk : s.hasFolder k = true) :
    (s.holding n bytes).hasFolder k = true := by
  simp only [hasFolder, holding, Bool.or_eq_true] at hk ⊢
  exact hk.imp_right (any_put (q := fun l => decide (k.length < l.length) && startsWith l k))

/-- A file that is written is read as what was written. -/
theorem read_holding (hn : s.IsWritable n) : (s.holding n bytes).read n = .ok bytes := by
  have hpassable : (s.holding n bytes).isPassable n = true := by
    have hbefore := isPassable_of_isFolder_folder hn.2
    simp only [isPassable, List.all_eq_true, Bool.or_eq_true] at hbefore ⊢
    exact fun i hi => (hbefore i hi).imp_right hasFolder_holding
  rw [read, find?, if_pos hpassable, (bytes?_holding s n bytes).1]

end WireErosion.FileStore
