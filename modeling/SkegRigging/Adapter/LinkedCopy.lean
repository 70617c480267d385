import SkegRigging.Adapter.FileCopy
import SkegRigging.Library.LinkedTree

/-!
# Snapshots in a file system with links

`snapshot` of `tenant.rs` in a file system in which a file may have several paths and a symbolic
link may stand anywhere. `std::fs::copy` opens its destination with `File::create`, which follows
links and empties the file that it finds, under whatever path; `create_dir_all` follows links to
directories; the kind of an entry of the source is that of the entry itself, so that links in the
source are skipped.

A path is absolute, and it and the targets of links are without `..`. `FsEnv` is what the operating
system makes of the calls of one copy, as in the model without links; a copy of a file that stops
leaves the given number of bytes.
-/

set_option autoImplicit false

namespace SkegRigging

open FileTree Fs

variable {F S : Type} {E : DiskVamanaIndex F S}

/-- A file system: its tree, the content of each inode, and the number of the next one. -/
structure Volume where
  tree : FileTree String (Leaf String)
  data : Nat → Bytes
  next : Nat
  fresh : ∀ q n, tree.node q = some (.file (.inode n)) → n < next

/-- The most links that the operating system follows on the way along one path. -/
def maxLinks : Nat := 40

def Blocked.error : Blocked → IoError
  | .notDir => notADirectory
  | .tooManyLinks => ⟨.other, "Too many levels of symbolic links (os error 40)"⟩

namespace Volume

/-! ## Paths -/

section Paths

variable (d : Volume)

/-- The place where a path leads. -/
def follow (p : List String) : Except Blocked (List String) := d.tree.follow maxLinks [] p

/-- `std::fs::metadata`: what is where a path leads. -/
def metadata (p : List String) : Option (Node (Leaf String)) :=
  match d.follow p with
  | .ok q => d.tree.node q
  | .error _ => none

/-- The file that a path leads to. -/
def inodeAt (p : List String) : Option Nat :=
  match d.metadata p with
  | some (.file (.inode n)) => some n
  | _ => none

/-- `std::fs::read`. -/
def read (p : List String) : Option Bytes := (d.inodeAt p).map d.data

/-- The entry `name` of a directory, as `DirEntry::file_type` sees it: a link is not followed. -/
def entryAt (dir : List String) (name : String) : Option (Node (Leaf String)) :=
  match d.follow dir with
  | .ok q => d.tree.node (q ++ [name])
  | .error _ => none

end Paths

/-! ## Changes -/

/-- Write a file through an open handle. -/
def overwrite (d : Volume) (n : Nat) (bytes : Bytes) : Volume :=
  { d with data := Function.update d.data n bytes }

/-- Make an empty file where there is nothing. -/
def create (d : Volume) (dir : List String) (name : String) (h : d.tree.Writable dir name) :
    Volume where
  tree := d.tree.put dir name (.inode d.next) h
  data := Function.update d.data d.next []
  next := d.next + 1
  fresh q n hq := by
    rw [node_put] at hq
    split at hq
    · simp only [Option.some.injEq, Node.file.injEq, Leaf.inode.injEq] at hq
      omega
    · have hlt := d.fresh q n hq
      omega

/-- Make a directory and those above it. -/
def makeDirs (d : Volume) (q : List String) : Volume where
  tree := d.tree.makeDirs q
  data := d.data
  next := d.next
  fresh p n hp := by
    rw [node_makeDirs] at hp
    split at hp
    · simp at hp
    · exact d.fresh p n hp

/-- `File::create`: open a file for writing and empty it, or make it. There is no file to write to
behind a device. -/
def fileCreate (d : Volume) (path : List String) : Except IoError (Volume × Option Nat) :=
  match d.follow path with
  | .error b => .error b.error
  | .ok q =>
    match d.tree.node q with
    | some .dir => .error isADirectory
    | some (.file (.inode n)) => .ok (d.overwrite n [], some n)
    | some (.file (.link _)) => .error notFound
    | some .special => .ok (d, none)
    | none =>
      match q.getLast? with
      | none => .error isADirectory
      | some name =>
        if h : d.tree.Writable q.dropLast name then
          .ok (d.create q.dropLast name h, some d.next)
        else .error notFound

/-- Write through the handle that `fileCreate` gave. -/
def write (d : Volume) (n : Option Nat) (bytes : Bytes) : Volume :=
  match n with
  | some n => d.overwrite n bytes
  | none => d

/-- Where `create_dir_all` finds or makes a directory. The path `p` leads to a directory, and `rest`
goes on from there. -/
def place (d : Volume) (p : List String) : List String → Except IoError (List String)
  | [] =>
    match d.follow p with
    | .ok q => .ok q
    | .error b => .error b.error
  | n :: rest =>
    match d.metadata (p ++ [n]) with
    | some .dir => place d (p ++ [n]) rest
    | _ =>
      match d.follow p with
      | .error b => .error b.error
      | .ok top =>
        match d.tree.node (top ++ [n]), rest, d.follow (p ++ [n]) with
        | none, _, _ => .ok (top ++ n :: rest)
        -- `mkdir` does not follow a link at the end of its path
        | some _, [], _ => .error fileExists
        | some _, _ :: _, .error b => .error b.error
        | some _, _ :: _, .ok q => .error (if d.tree.exists q then notADirectory else fileExists)

/-- `std::fs::create_dir_all`. When it stops with an error it has made the first `k` components. -/
def createDirAll (stop : Option (Nat × IoError)) (d : Volume) (path : List String) :
    Volume × Except IoError Unit :=
  match stop with
  | some (k, e) =>
    match d.place [] (path.dropLast.take k) with
    | .ok q => (d.makeDirs q, .error e)
    | .error _ => (d, .error e)
  | none =>
    match d.place [] path with
    | .ok q => (d.makeDirs q, .ok ())
    | .error e => (d, .error e)

/-- `std::fs::copy`. -/
def copyFile (outcome : CopyOutcome Nat) (d : Volume) (src dest : List String) :
    Volume × Except IoError Unit :=
  match d.inodeAt src with
  | none => (d, .error notFound)
  | some i =>
    match outcome with
    | .refused e => (d, .error e)
    | .stopped left e =>
      match d.fileCreate dest with
      | .error e' => (d, .error e')
      | .ok (opened, n) => (opened.write n ((opened.data i).take left), .error e)
    | .done =>
      match d.fileCreate dest with
      | .error e => (d, .error e)
      -- the destination is open and truncated before the source is read
      | .ok (opened, n) => (opened.write n (opened.data i), .ok ())

/-! ## `copy_dir_contents` -/

section Copy

variable (env : FsEnv Nat)

/-- One iteration of the loop; `copyDir` is the recursive call. -/
def copyEntry (copyDir : Volume → List String → List String →
      Option (Volume × Except IoError Unit))
    (src dest : List String) (d : Volume) (name : String) :
    Option (Volume × Except IoError Unit) :=
  match env.entry (src ++ [name]) with
  | some e => some (d, .error e)
  | none =>
    match d.entryAt src name with
    | some .dir =>
      match createDirAll (env.createDir (dest ++ [name])) d (dest ++ [name]) with
      | (d, .error e) => some (d, .error e)
      | (d, .ok ()) => copyDir d (src ++ [name]) (dest ++ [name])
    | some (.file (.inode _)) =>
      some (copyFile (env.copy (src ++ [name])) d (src ++ [name]) (dest ++ [name]))
    -- neither `is_dir` nor `is_file`: skipped
    | some (.file (.link _)) | some .special => some (d, .ok ())
    | none => some (d, .error notFound)

/-- The loop over the entries of `src`. -/
def copyEntries (copyDir : Volume → List String → List String →
      Option (Volume × Except IoError Unit))
    (src dest : List String) :
    Volume → List String → Option (Volume × Except IoError Unit)
  | d, [] => some (d, .ok ())
  | d, name :: names =>
    match copyEntry env copyDir src dest d name with
    | none => none
    | some (d, .error e) => some (d, .error e)
    | some (d, .ok ()) => copyEntries copyDir src dest d names

/-- Recursively copy the immediate contents of `src` into `dest`, at most `fuel` levels deep. -/
def copyDirContents : Nat → Volume → List String → List String →
    Option (Volume × Except IoError Unit)
  | 0, _, _, _ => none
  | fuel + 1, d, src, dest =>
    match env.readDir src with
    | some e => some (d, .error e)
    | none =>
      match d.follow src with
      | .error b => some (d, .error b.error)
      | .ok q =>
        match d.tree.node q with
        | some .dir => copyEntries env (copyDirContents fuel) src dest d (env.order src)
        | some _ => some (d, .error notADirectory)
        | none => some (d, .error notFound)

end Copy

/-! ## Snapshots -/

section Lifecycle

variable (J : SerdeJson)

/-- `Tenant::flush`: write the sidecar in the tenant directory. -/
def flush (o : WriteOutcome) (d : Volume) (t : Tenant E) : Volume × Except TenantError Unit :=
  if t.readOnly then (d, .ok ())
  else
    match t.inner.sidecar.writeToPath J o none with
    -- the file was not opened
    | (none, r) => (d, r)
    | (some bytes, r) =>
      match d.fileCreate (metaPath t.dir.components) with
      | .error e => (d, .error (.io e))
      | .ok (opened, n) => (opened.write n bytes, r)

/-- `TenantLifecycle::snapshot` up to the copy: make the destination, unless something is there, and
flush. -/
def prepare (o : WriteOutcome) (env : FsEnv Nat) (d : Volume) (t : Tenant E) (dest : List String) :
    Volume × Except OpenError Unit :=
  match if (d.metadata dest).isSome then (d, .ok ()) else createDirAll (env.createDir dest) d dest
    with
  | (d, .error e) => (d, .error (.ofIo e))
  | (d, .ok ()) =>
    match flush J o d t with
    | (d, .error e) => (d, .error (.ofTenantError e))
    | (d, .ok ()) => (d, .ok ())

/-- `TenantLifecycle::snapshot`. -/
def snapshot (o : WriteOutcome) (env : FsEnv Nat) (fuel : Nat) (d : Volume) (t : Tenant E)
    (dest : List String) : Option (Volume × Except OpenError Unit) :=
  match prepare J o env d t dest with
  | (d, .error e) => some (d, .error e)
  | (d, .ok ()) =>
    match copyDirContents env fuel d t.dir.components dest with
    | none => none
    | some (d, .error e) => some (d, .error (.io e))
    | some (d, .ok ()) => some (d, .ok ())

end Lifecycle

end Volume

end SkegRigging
