import LeastSquares.Config
import LeastSquares.Json.Fields
import LeastSquares.Json.Tree

/-!
# Options in a file

All four options are written, as JSON.  Any of them may be missing from a text that is read and
then has its default; the options are validated once the whole text has been read.

A `Storage` holds files and directories under their paths.  Saving replaces the whole content of a
file; its directory must exist.
-/

namespace LeastSquares

/-! ## options as JSON -/

namespace Config
open Json

structure Partial where
  maxIterations : Option Nat
  tolerance : Option Float
  initialDamping : Option Float
  differenceStep : Option Float

def Partial.none : Partial := ⟨.none, .none, .none, .none⟩

/-- the options in the order in which they are declared -/
def fields : List (RecordField Partial) := [
  { name := "max_iterations"
    isRead := (·.maxIterations.isSome)
    read := fun p => return { p with maxIterations := some (← natural) } },
  { name := "tolerance"
    isRead := (·.tolerance.isSome)
    read := fun p => return { p with tolerance := some (← float) } },
  { name := "initial_lambda"
    isRead := (·.initialDamping.isSome)
    read := fun p => return { p with initialDamping := some (← float) } },
  { name := "epsilon"
    isRead := (·.differenceStep.isSome)
    read := fun p => return { p with differenceStep := some (← float) } }]

def Partial.complete (p : Partial) : Config Float where
  maxIterations := p.maxIterations.getD Config.default.maxIterations
  tolerance := p.tolerance.getD Config.default.tolerance
  initialDamping := p.initialDamping.getD Config.default.initialDamping
  differenceStep := p.differenceStep.getD Config.default.differenceStep

def reader : Reader (Config Float) := record fields .none fun p => some p.complete

def ofJson (text : String) : Except (Failure Float) (Config Float) :=
  match reader.readAll text with
  | .error fault => .error (.json fault)
  | .ok config =>
    match config.validate with
    | .error failure => .error failure
    | .ok () => .ok config

def tree (c : Config Float) : Tree := .object [
  ("max_iterations", .natural c.maxIterations),
  ("tolerance", .real c.tolerance),
  ("initial_lambda", .real c.initialDamping),
  ("epsilon", .real c.differenceStep)]

def toJson (c : Config Float) : String := c.tree.pretty

end Config

/-! ## files -/

abbrev Path := List String

inductive Entry where
  | directory
  | file (bytes : ByteArray)

/-- files and directories under their paths; the top directory always exists -/
structure Storage where
  entries : List (Path × Entry)

namespace Storage

def empty : Storage := ⟨[]⟩

def find? (s : Storage) (path : Path) : Option Entry :=
  if path = [] then some .directory else s.entries.lookup path

def put (s : Storage) (path : Path) (entry : Entry) : Storage := ⟨(path, entry) :: s.entries⟩

theorem find?_put_self (s : Storage) {path : Path} (h : path ≠ []) (entry : Entry) :
    (s.put path entry).find? path = some entry := by
  simp [find?, put, h]

def read (s : Storage) (path : Path) : Except FileFault ByteArray :=
  match s.find? path with
  | some (.file bytes) => .ok bytes
  | some .directory => .error .isDirectory
  | none => .error .notFound

/-- the storage with a new content of the file; the file need not exist yet -/
def write (s : Storage) (path : Path) (bytes : ByteArray) : Except FileFault Storage :=
  match s.find? path with
  | some .directory => .error .isDirectory
  | some (.file _) => .ok (s.put path (.file bytes))
  | none =>
    match s.find? path.dropLast with
    | some .directory => .ok (s.put path (.file bytes))
    | _ => .error .notFound

theorem read_of_write {s t : Storage} {path : Path} {bytes : ByteArray}
    (h : s.write path bytes = .ok t) : t.read path = .ok bytes := by
  have hp : path ≠ [] := by
    rintro rfl
    simp [write, find?] at h
  unfold write at h
  split at h
  · cases h
  · cases h
    rw [read, find?_put_self s hp]
  · split at h
    · cases h
      rw [read, find?_put_self s hp]
    · cases h

def readText (s : Storage) (path : Path) : Except FileFault String := do
  match String.fromUTF8? (← s.read path) with
  | some text => return text
  | none => throw .notUtf8

theorem fromUTF8?_toUTF8 (text : String) : String.fromUTF8? text.toUTF8 = some text := by
  unfold String.fromUTF8?
  rw [dif_pos]
  rfl

theorem readText_of_write {s t : Storage} {path : Path} {text : String}
    (h : s.write path text.toUTF8 = .ok t) : t.readText path = .ok text := by
  simp only [readText, read_of_write h, bind, Except.bind, fromUTF8?_toUTF8]
  rfl

end Storage

namespace Config

def load (s : Storage) (path : Path) : Except (Failure Float) (Config Float) :=
  match s.readText path with
  | .ok text => ofJson text
  | .error fault => .error (.file fault)

def save (c : Config Float) (s : Storage) (path : Path) : Except (Failure Float) Storage :=
  match s.write path c.toJson.toUTF8 with
  | .ok s => .ok s
  | .error fault => .error (.file fault)

end Config

end LeastSquares
