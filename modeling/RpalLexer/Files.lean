import RpalLexer.Failure

/-!
# Files and paths

What lies at a path, and as an instance a tree of files and directories below the current
directory. A path is shown without the parts that stay where they are (empty ones and single dots);
the way up is kept.
-/
namespace RpalLexer

inductive Entry where
  | file (bytes : List UInt8)
  | directory

abbrev Files := String → Except SystemReason Entry

def Files.contents (files : Files) (path : String) : Except Failure (List UInt8) :=
  if path.toList.contains '\x00' then .error (.plain .badValue "embedded null byte")
  else
    match files path with
    | .ok (.file bytes) => .ok bytes
    | .ok .directory => .error (.opening .isDirectory path)
    | .error reason => .error (.opening reason path)

/-- Files and directories by the names on the way to them. The directories on the way to a file
need not be listed. -/
structure FileTree where
  files : List (List String × List UInt8) := []
  directories : List (List String) := []

def pathParts (path : String) : List String :=
  (path.splitOn "/").filter fun part => part != "" && part != "."

def pathRoot (path : String) : String :=
  match path.toList with
  | '/' :: '/' :: '/' :: _ => "/"
  | '/' :: '/' :: _ => "//"
  | '/' :: _ => "/"
  | _ => ""

def shownPath (path : String) : String :=
  let shown := pathRoot path ++ String.intercalate "/" (pathParts path)
  if shown.isEmpty then "." else shown

section NoSlash

variable {text : String}

theorem get_ne_of_notMem {c : Char} (h : c ∉ text.toList) (hd : c ≠ default)
    (i : String.Pos.Raw) : i.get text ≠ c := by
  change String.Pos.Raw.utf8GetAux text.toList 0 i ≠ c
  generalize text.toList = cs at h
  generalize (0 : String.Pos.Raw) = start
  induction cs generalizing start with
  | nil => exact hd.symm
  | cons d ds ih =>
    rw [List.mem_cons, not_or] at h
    change (if start = i then d else String.Pos.Raw.utf8GetAux ds (start + d) i) ≠ c
    split
    · exact fun he => h.1 he.symm
    · exact ih h.2 _

theorem extractTo_of_le {cs : List Char} {i stop : String.Pos.Raw}
    (h : i.byteIdx + (String.ofList cs).utf8ByteSize ≤ stop.byteIdx) :
    String.Pos.Raw.extract.go₂ cs i stop = cs := by
  induction cs generalizing i with
  | nil => rfl
  | cons c cs ih =>
    rw [String.ofList_cons, String.utf8ByteSize_append, String.utf8ByteSize_singleton] at h
    have hpos := c.utf8Size_pos
    have hi : i ≠ stop := by
      rintro rfl
      omega
    have hrest : String.Pos.Raw.extract.go₂ cs (i + c) stop = cs := by
      apply ih
      rw [String.Pos.Raw.byteIdx_add_char]
      omega
    change (if i = stop then [] else c :: String.Pos.Raw.extract.go₂ cs (i + c) stop) = c :: cs
    rw [if_neg hi, hrest]

theorem extract_of_atEnd {stop : String.Pos.Raw} (h : stop.atEnd text = true) :
    String.Pos.Raw.extract text 0 stop = text := by
  have hle : text.utf8ByteSize ≤ stop.byteIdx := by simpa [String.Pos.Raw.atEnd] using h
  have hgo : String.Pos.Raw.extract.go₁ text.toList 0 0 stop = text.toList := by
    have hto : String.Pos.Raw.extract.go₂ text.toList 0 stop = text.toList :=
      extractTo_of_le (by simpa using hle)
    cases hcs : text.toList with
    | nil => rfl
    | cons c cs =>
      rw [hcs] at hto
      exact hto
  change (if 0 ≥ stop.byteIdx then "" else
    String.ofList (String.Pos.Raw.extract.go₁ text.toList 0 0 stop)) = text
  rw [hgo, String.ofList_toList]
  split
  · exact (String.utf8ByteSize_eq_zero_iff.1 (by omega)).symm
  · rfl

theorem splitOnAux_of_notMem (h : '/' ∉ text.toList) (i : String.Pos.Raw) :
    text.splitOnAux "/" 0 i 0 [] = [text] := by
  rw [String.splitOnAux]
  by_cases hend : i.atEnd text = true
  · rw [if_pos hend, extract_of_atEnd hend]
    rfl
  · have hget : (i.get text == String.Pos.Raw.get "/" 0) = false :=
      beq_eq_false_iff_ne.2 (get_ne_of_notMem h (by decide) i)
    rw [if_neg hend, hget, if_neg Bool.false_ne_true]
    exact splitOnAux_of_notMem h _
termination_by text.utf8ByteSize - i.byteIdx
decreasing_by
  have hlt : i.byteIdx < text.utf8ByteSize := by simpa [String.Pos.Raw.atEnd] using hend
  have hnext := String.Pos.Raw.lt_next text i
  simp only [String.Pos.Raw.lt_iff] at hnext
  have hu : i.unoffsetBy 0 = i := rfl
  rw [hu]
  omega

theorem splitOn_of_notMem (h : '/' ∉ text.toList) : text.splitOn "/" = [text] := by
  rw [String.splitOn, if_neg (by decide), splitOnAux_of_notMem h]

end NoSlash

theorem shownPath_of_notMem {path : String} (h : '/' ∉ path.toList) (he : path ≠ "")
    (hd : path ≠ ".") : shownPath path = path := by
  have hparts : pathParts path = [path] := by
    rw [pathParts, splitOn_of_notMem h, List.filter_cons_of_pos (by simp [he, hd]), List.filter_nil]
  have hroot : pathRoot path = "" := by
    rw [pathRoot]
    split
    · rename_i hp
      exact absurd (by rw [hp]; exact .head _) h
    · rename_i hp
      exact absurd (by rw [hp]; exact .head _) h
    · rename_i hp
      exact absurd (by rw [hp]; exact .head _) h
    · rfl
  have hs : "" ++ String.intercalate "/" [path] = path := by simp
  have hn : path.isEmpty = false := by simp [he]
  simp only [shownPath, hroot, hparts, hs, hn]
  rfl

namespace FileTree

def nameLimit : Nat := 255

def pathLimit : Nat := 4095

def add (t : FileTree) (path : String) (bytes : List UInt8) : FileTree :=
  { t with files := (pathParts path, bytes) :: t.files }

def addDirectory (t : FileTree) (path : String) : FileTree :=
  { t with directories := pathParts path :: t.directories }

def isDirectory (t : FileTree) (names : List String) : Bool :=
  names.isEmpty || t.directories.any names.isPrefixOf ||
    t.files.any fun f => names.isPrefixOf f.1 && names != f.1

def entry? (t : FileTree) (names : List String) : Option Entry :=
  match t.files.lookup names with
  | some bytes => some (.file bytes)
  | none => if t.isDirectory names then some .directory else none

/-- Follows the parts of a path from a directory. Nothing is known of what lies above the tree. -/
def walk (t : FileTree) (here : List String) : List String → Except SystemReason Entry
  | [] => .ok .directory
  | part :: rest =>
    if part == "" || part == "." then walk t here rest
    else if part == ".." then
      if here.isEmpty then walk {} [] rest else walk t here.dropLast rest
    else if nameLimit < part.utf8ByteSize then .error .nameTooLong
    else
      match t.entry? (here ++ [part]), rest with
      | none, _ => .error .notFound
      | some .directory, _ => walk t (here ++ [part]) rest
      | some (.file bytes), [] => .ok (.file bytes)
      | some (.file _), _ :: _ => .error .notDirectory

/-- What lies at a path: only a directory can be followed by a slash, and the empty path leads
nowhere. -/
def find (t : FileTree) : Files := fun path =>
  if path.isEmpty then .error .notFound
  else if pathLimit < path.utf8ByteSize then .error .nameTooLong
  else if path.startsWith "/" then walk {} [] (path.splitOn "/")
  else t.walk [] (path.splitOn "/")

end FileTree
end RpalLexer
