import WireErosion.Files.Name
import WireErosion.Text.Blank

/-!
# A store of files

The files that a run of the program sees, by their names.  A folder is there if it is listed or
holds a file that is.  Two points in a name lead back to the folder above.

A file can be written if its folder is there and no folder has its name.  It is opened first, which
leaves it there and empty, and then filled.

A file holds bytes.  They are read in one of two ways, and in both a carriage return, alone or
before a line feed, is read as a line feed.

* As UTF-8.  Bytes that are not are a fault.
* As ASCII, where every other byte is read as the replacement character.
-/

namespace WireErosion

/-- Files and folders by the components of their names. -/
structure FileStore where
  /-- The files with their bytes. -/
  files : List (List String × ByteArray)
  /-- The folders that are there even if they hold no file. -/
  folders : List (List String)
deriving Inhabited

/-! ## Texts -/

/-- The text of bytes in UTF-8. -/
def readUnicode (bytes : ByteArray) : Except Fault String :=
  match String.fromUTF8? bytes with
  | some s => .ok (String.ofList (Text.unifyBreaks s.toList))
  | none => .error .malformedText

/-- The character of a byte in ASCII, or the replacement character. -/
def asciiChar (b : UInt8) : Char := if b < 128 then Char.ofNat b.toNat else '\ufffd'

/-- The text of bytes in ASCII. -/
def readAscii (bytes : ByteArray) : String :=
  String.ofList (Text.unifyBreaks (bytes.toList.map asciiChar))

/-! ## Files -/

namespace FileStore

/-- The components of a name without the steps back. -/
def simplified (parts : List String) : List String :=
  parts.foldl (fun ps p =>
    if p = ".." ∧ ps ≠ [] ∧ ps.getLast? ≠ some ".." then ps.dropLast else ps ++ [p]) []

/-- The components by which a file is kept.  Those of an absolute name start with the root. -/
def key (n : FileName) : List String :=
  (if n.isAbsolute then ["/"] else []) ++ simplified n.parts

/-- Whether a list starts with another one. -/
def startsWith (whole start : List String) : Bool := whole.take start.length == start

/-- The bytes of a file. -/
def bytes? (s : FileStore) (k : List String) : Option ByteArray :=
  (s.files.find? fun f => f.1 == k).map (·.2)

/-- Whether a folder is there.  The folders above the one where the program runs are. -/
def hasFolder (s : FileStore) (k : List String) : Bool :=
  k.all (· == "..") || k == ["/"] || s.folders.contains k
    || s.files.any fun f => k.length < f.1.length && startsWith f.1 k

/-- Whether every folder is there that a name steps back from. -/
def isPassable (s : FileStore) (n : FileName) : Bool :=
  (List.range n.parts.length).all fun i =>
    n.parts[i]? != some ".." || s.hasFolder (key { n with parts := n.parts.take i })

/-- The bytes of the file of a name, if it is there. -/
def find? (s : FileStore) (n : FileName) : Option ByteArray :=
  if s.isPassable n then s.bytes? (key n) else none

/-- Whether the folder of a name is there. -/
def isFolder (s : FileStore) (n : FileName) : Bool := s.isPassable n && s.hasFolder (key n)

/-- Whether a file or a folder of a name is there. -/
def contains (s : FileStore) (n : FileName) : Bool := (s.find? n).isSome || s.isFolder n

/-- Why there is no file of a name. -/
def absence (s : FileStore) (n : FileName) : Fault :=
  let above := (List.range (key n).length).map fun i => (key n).take i
  if above.any fun k => (s.bytes? k).isSome then .notADirectory n.text else .noSuchFile n.text

/-- The bytes of the file of a name. -/
def read (s : FileStore) (n : FileName) : Except Fault ByteArray :=
  match s.find? n with
  | some bytes => .ok bytes
  | none => .error (if s.isFolder n then .isADirectory n.text else s.absence n)

/-- Files with one more, or with the bytes of one of them replaced. -/
def put (k : List String) (bytes : ByteArray) :
    List (List String × ByteArray) → List (List String × ByteArray)
  | [] => [(k, bytes)]
  | (l, b) :: rest => if l = k then (l, bytes) :: rest else (l, b) :: put k bytes rest

/-! ## Writing -/

/-- Work on the files.  If it fails they are left as it got to them. -/
abbrev Work (α : Type) := EStateM Fault FileStore α

/-- Opens a file to be written. -/
def openFile (n : FileName) : Work Unit := do
  let s ← get
  if s.isFolder n then throw (.isADirectory n.text)
  if !s.isFolder n.folder then throw (s.absence n)
  set { s with files := put (key n) .empty s.files }

/-- Fills a file that is open. -/
def fillFile (n : FileName) (bytes : ByteArray) : Work Unit :=
  modify fun s => { s with files := put (key n) bytes s.files }

/-- Writes a file. -/
def write (n : FileName) (bytes : ByteArray) : Work Unit := do
  openFile n
  fillFile n bytes

end FileStore

end WireErosion
