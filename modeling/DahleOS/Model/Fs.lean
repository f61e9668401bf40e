import Mathlib.Algebra.GroupWithZero.Nat
import DahleOS.Lib.CArray
import DahleOS.Model.Libc

/-!
# The in-memory filesystem (`fs/fs.c`) and its shell commands

All state is a pool of 64 nodes, the number of nodes ever allocated, and the index of
the current directory. Links are raw `int` indices in both directions (`children[]`
and `parent`). Every access through such an index is checked here: a function returns
`none` where the C code would read or write outside one of its arrays, or run off the
end of an unterminated name.

The commands return the new state, the message they print, and whether the path taken
calls `persist_save_fs()`.
-/

namespace DahleOS

open CArray

/-- `FS_DIR` and `FS_FILE`. The field is a raw word: a pool loaded from disk can hold
any value in it. -/
def fsDir : UInt32 := 0
def fsFile : UInt32 := 1

/-- `fs_node_t`, with `FS_MAX_NAME` = 64, `FS_MAX_CHILDREN` = 16, `FS_MAX_DATA` = 256. -/
structure FsNode where
  name : Fin 64 → UInt8
  type : UInt32
  parent : Int32
  children : Fin 16 → Int32
  childCount : Int32
  data : Fin 256 → UInt8
  dataLen : Int32

/-- Slot 0 of the pool, the root, exists. -/
instance rootSlot : NeZero 64 := ⟨by decide⟩

/-- A node of zero bytes. -/
def FsNode.zero : FsNode := ⟨fun _ => 0, 0, 0, fun _ => 0, 0, fun _ => 0, 0⟩

/-- The static state of `fs.c`, with `FS_MAX_NODES` = 64. -/
structure Fs where
  pool : Fin 64 → FsNode
  poolUsed : Int32
  cwd : Int32

/-- `pool[i]`. -/
def Fs.node (fs : Fs) (i : Int32) : Option FsNode := rd fs.pool i.toInt

/-- `pool[i] = nd`. -/
def Fs.setNode (fs : Fs) (i : Int32) (nd : FsNode) : Option Fs :=
  (wr fs.pool i.toInt nd).map fun pool => { fs with pool }

/-! ## The pool -/

/-- `node_alloc`: the new index, or -1 if the pool is full. -/
def nodeAlloc (fs : Fs) : Option (Int32 × Fs) :=
  if 64 ≤ fs.poolUsed then some (-1, fs)
  else do
    let idx := fs.poolUsed
    let fs ← { fs with poolUsed := idx + 1 }.setNode idx { FsNode.zero with parent := -1 }
    return (idx, fs)

/-- `node_find_child`: the index of the child with that name, or -1. -/
def nodeFindChild (fs : Fs) (parent : Int32) (name : Str) : Option Int32 := do
  let p ← fs.node parent
  let test (c : Int32) : Option Bool := do
    let child ← fs.node c
    let s ← cstr child.name
    return strcmp s name = 0
  match ← findSlot p.children test 0 p.childCount.toInt.toNat with
  | some i => rd p.children i
  | none => return -1

/-- `node_add_child`: 0, or -1 if the parent's list is full. -/
def nodeAddChild (fs : Fs) (parentIdx childIdx : Int32) : Option (Int32 × Fs) := do
  let p ← fs.node parentIdx
  -- a negative count passes this test
  if 16 ≤ p.childCount then return (-1, fs)
  let children ← wr p.children p.childCount.toInt childIdx
  let fs ← fs.setNode parentIdx { p with children, childCount := p.childCount + 1 }
  let c ← fs.node childIdx
  let fs ← fs.setNode childIdx { c with parent := parentIdx }
  return (0, fs)

/-- `fs_init_empty`. -/
def fsInitEmpty : Fs := ⟨fun _ => FsNode.zero, 0, 0⟩

/-- A starter directory of `fs_init`. -/
def fsInitDir (fs : Fs) (name : Str) : Option Fs := do
  let (idx, fs) ← nodeAlloc fs
  let nd ← fs.node idx
  let fs ← fs.setNode idx { nd with name := strncpy nd.name name 63, type := fsDir }
  let (_, fs) ← nodeAddChild fs 0 idx
  return fs

/-- `fs_init`: the root and the starter directories. -/
def fsInit : Option Fs := do
  let (_, fs) ← nodeAlloc fsInitEmpty
  let root ← fs.node 0
  let name := Function.update (Function.update root.name 0 47) 1 0
  let fs ← fs.setNode 0 { root with name, type := fsDir, parent := -1 }
  let fs ← fsInitDir fs (str "home")
  fsInitDir fs (str "tmp")

/-! ## Messages -/

/-- The filesystem commands of the shell. -/
inductive FsCmd
  | mkdir | touch | rm | cd | ls | cat | pwd
  deriving DecidableEq

def FsCmd.name : FsCmd → Str
  | .mkdir => str "mkdir"
  | .touch => str "touch"
  | .rm => str "rm"
  | .cd => str "cd"
  | .ls => str "ls"
  | .cat => str "cat"
  | .pwd => str "pwd"

/-- What a command prints. -/
inductive FsMsg
  | usage (cmd : FsCmd)
  | alreadyExists (name : Str)
  | filesystemFull (cmd : FsCmd)
  | parentFull (cmd : FsCmd)
  | noSuchFile (cmd : FsCmd) (name : Str)
  | isDirectory (cmd : FsCmd) (name : Str)
  | noSuchDirectory (component : Str)
  | notDirectory (component : Str)
  | emptyDir
  | listing (entries : List (Str × Bool))
  | path (p : Str)
  | emptyFile
  | contents (s : Str)
  deriving DecidableEq

/-- The text of a message, colours left out. -/
def FsMsg.text : FsMsg → Str
  | .usage cmd => str "Usage: " ++ cmd.name ++ str " <name>\n"
  | .alreadyExists name => str "mkdir: " ++ name ++ str ": already exists\n"
  | .filesystemFull cmd => cmd.name ++ str ": filesystem full\n"
  | .parentFull cmd => cmd.name ++ str ": parent directory full\n"
  | .noSuchFile cmd name => cmd.name ++ str ": " ++ name ++ str ": no such file\n"
  | .isDirectory cmd name => cmd.name ++ str ": " ++ name ++ str ": is a directory\n"
  | .noSuchDirectory component => str "cd: " ++ component ++ str ": no such directory\n"
  | .notDirectory component => str "cd: " ++ component ++ str ": not a directory\n"
  | .emptyDir => str "(empty)\n"
  | .listing entries =>
    entries.flatMap fun e => e.1 ++ (if e.2 then str "/" else []) ++ str "\n"
  | .path p => p ++ str "\n"
  | .emptyFile => str "(empty file)\n"
  | .contents s => s ++ str "\n"

/-- The outcome of a command: the state, what it printed, whether it saved. -/
structure FsResult where
  fs : Fs
  msg : Option FsMsg
  save : Bool

/-! ## Commands -/

/-- The common body of `fs_cmd_mkdir` and `fs_cmd_touch`: they differ in the type of the
node and in what is said when the name is taken. The node is allocated and named before
the parent's list is checked for room. -/
def fsCreate (cmd : FsCmd) (type : UInt32) (taken : Option FsMsg) (fs : Fs) (name : Str) :
    Option FsResult := do
  if name = [] then return ⟨fs, some (.usage cmd), false⟩
  let found ← nodeFindChild fs fs.cwd name
  if 0 ≤ found then return ⟨fs, taken, false⟩
  -- the node stays allocated when its parent turns out to be full
  let (idx, fs) ← nodeAlloc fs
  if idx < 0 then return ⟨fs, some (.filesystemFull cmd), false⟩
  let nd ← fs.node idx
  let fs ← fs.setNode idx { nd with name := strncpy nd.name name 63, type }
  let (r, fs) ← nodeAddChild fs fs.cwd idx
  if r < 0 then return ⟨fs, some (.parentFull cmd), false⟩
  return ⟨fs, none, true⟩

/-- `fs_cmd_mkdir`. -/
def fsCmdMkdir (fs : Fs) (name : Str) : Option FsResult :=
  fsCreate .mkdir fsDir (some (.alreadyExists name)) fs name

/-- `fs_cmd_touch`: silent when the name is taken. -/
def fsCmdTouch (fs : Fs) (name : Str) : Option FsResult := fsCreate .touch fsFile none fs name

/-- The compaction loop of `fs_cmd_rm`, from slot `i` on with `todo` rounds left. -/
def removeChild (dir : FsNode) (child : Int32) : (i todo : ℕ) → Option FsNode
  | _, 0 => some dir
  | i, todo + 1 => do
    let c ← rd dir.children i
    if c = child then
      let children ← shiftLeft dir.children i (dir.childCount.toInt.toNat - 1 - i)
      return { dir with children, childCount := dir.childCount - 1 }
    removeChild dir child (i + 1) todo

/-- `fs_cmd_rm`. -/
def fsCmdRm (fs : Fs) (name : Str) : Option FsResult := do
  if name = [] then return ⟨fs, some (.usage .rm), false⟩
  let child ← nodeFindChild fs fs.cwd name
  if child < 0 then return ⟨fs, some (.noSuchFile .rm name), false⟩
  let nd ← fs.node child
  if nd.type = fsDir then return ⟨fs, some (.isDirectory .rm name), false⟩
  let dir ← fs.node fs.cwd
  let dir ← removeChild dir child 0 dir.childCount.toInt.toNat
  let fs ← fs.setNode fs.cwd dir
  -- the slot is not used again, only its name is cleared
  let nd ← fs.node child
  let fs ← fs.setNode child { nd with name := fun _ => 0 }
  return ⟨fs, none, true⟩

/-- One round of the scanner of `fs_cmd_cd`: the next component, cut to 63 characters, and
the rest of the path behind the slash that ends it, if one does. -/
def nextComponent (path : Str) : Str × Str :=
  let component := (path.takeWhile (· ≠ slash)).take 63
  let rest := path.drop component.length
  (component, if rest.head? = some slash then rest.tail else rest)

/-- The walk of `fs_cmd_cd` from `cur`: the directory it ends in, or the error. Every
round consumes a character, so as many rounds as characters are enough. -/
def cdWalk (fs : Fs) : (rounds : ℕ) → (cur : Int32) → (path : Str) → Option (Except FsMsg Int32)
  | 0, cur, _ => some (.ok cur)
  | _ + 1, cur, [] => some (.ok cur)
  | rounds + 1, cur, ch :: path =>
    let (component, rest) := nextComponent (ch :: path)
    if component = [] then cdWalk fs rounds cur rest
    else if strcmp component (str ".") = 0 then cdWalk fs rounds cur rest
    else if strcmp component (str "..") = 0 then do
      -- the root has parent -1 and stays where it is
      let nd ← fs.node cur
      cdWalk fs rounds (if 0 ≤ nd.parent then nd.parent else cur) rest
    else do
      let child ← nodeFindChild fs cur component
      if child < 0 then return .error (.noSuchDirectory component)
      let nd ← fs.node child
      if nd.type ≠ fsDir then return .error (.notDirectory component)
      cdWalk fs rounds child rest

/-- `fs_cmd_cd`. The empty path and `/` go to the root and return before the save. -/
def fsCmdCd (fs : Fs) (path : Str) : Option FsResult :=
  match path with
  | [] => some ⟨{ fs with cwd := 0 }, none, false⟩
  | ch :: tail =>
    if ch = slash ∧ tail = [] then some ⟨{ fs with cwd := 0 }, none, false⟩
    else do
      -- a path that starts with a slash is walked from the root
      let (cur, path) := if ch = slash then (0, tail) else (fs.cwd, ch :: tail)
      match ← cdWalk fs path.length cur path with
      | .error msg => return ⟨fs, some msg, false⟩
      | .ok cur => return ⟨{ fs with cwd := cur }, none, true⟩

/-- The loop of `fs_cmd_ls`: name and kind of the children from slot `i` on. -/
def lsFrom (fs : Fs) (dir : FsNode) : (i todo : ℕ) → Option (List (Str × Bool))
  | _, 0 => some []
  | i, todo + 1 => do
    let c ← rd dir.children i
    let nd ← fs.node c
    let s ← cstr nd.name
    let rest ← lsFrom fs dir (i + 1) todo
    return (s, decide (nd.type = fsDir)) :: rest

/-- `fs_cmd_ls`. -/
def fsCmdLs (fs : Fs) : Option FsResult := do
  let dir ← fs.node fs.cwd
  if dir.childCount = 0 then return ⟨fs, some .emptyDir, false⟩
  let entries ← lsFrom fs dir 0 dir.childCount.toInt.toNat
  return ⟨fs, some (.listing entries), false⟩

/-- `fs_cmd_cat`. -/
def fsCmdCat (fs : Fs) (name : Str) : Option FsResult := do
  if name = [] then return ⟨fs, some (.usage .cat), false⟩
  let child ← nodeFindChild fs fs.cwd name
  if child < 0 then return ⟨fs, some (.noSuchFile .cat name), false⟩
  let nd ← fs.node child
  if nd.type = fsDir then return ⟨fs, some (.isDirectory .cat name), false⟩
  if nd.dataLen = 0 then return ⟨fs, some .emptyFile, false⟩
  let s ← cstr nd.data
  return ⟨fs, some (.contents s), false⟩

/-- The walk of `fs_pwd_str` towards the root: the nodes pushed on its stack, first
pushed first, with `room` entries left. -/
def pwdWalk (fs : Fs) : (room : ℕ) → (cur : Int32) → Option (List Int32)
  | 0, _ => some []
  | room + 1, cur =>
    if cur = 0 then some []
    else do
      let nd ← fs.node cur
      let rest ← pwdWalk fs room nd.parent
      return cur :: rest

/-- The path buffer of `fs_pwd_str` after one more name: characters are dropped from
position 510 on. -/
def pwdPush (fs : Fs) (path : Str) (i : Int32) : Option Str := do
  let nd ← fs.node i
  let s ← cstr nd.name
  let path := if path.length < 510 then path ++ [slash] else path
  return path ++ s.take (510 - path.length)

/-- `fs_pwd_str`. -/
def fsPwdStr (fs : Fs) : Option Str :=
  if fs.cwd = 0 then some [slash]
  else do
    let stack ← pwdWalk fs 32 fs.cwd
    stack.reverse.foldlM (pwdPush fs) []

/-- `fs_cmd_pwd`. -/
def fsCmdPwd (fs : Fs) : Option FsResult := do
  let p ← fsPwdStr fs
  return ⟨fs, some (.path p), false⟩

/-! ## The shell's wrappers (`shell/commands.c`) -/

/-- `first_token(args, out, FS_MAX_NAME)`. -/
def firstToken (args : Str) : Str := word 63 args

/-- `cmd_mkdir`, `cmd_touch`, `cmd_rm`, `cmd_cd`, `cmd_ls`, `cmd_cat`, `cmd_pwd`. -/
def FsCmd.exec : FsCmd → Fs → Str → Option FsResult
  | .mkdir, fs, args => fsCmdMkdir fs (firstToken args)
  | .touch, fs, args => fsCmdTouch fs (firstToken args)
  | .rm, fs, args => fsCmdRm fs (firstToken args)
  | .cd, fs, args => fsCmdCd fs args
  | .ls, fs, _ => fsCmdLs fs
  | .cat, fs, args => fsCmdCat fs (firstToken args)
  | .pwd, fs, _ => fsCmdPwd fs

/-- A sequence of commands. -/
def Fs.run : Fs → List (FsCmd × Str) → Option Fs
  | fs, [] => some fs
  | fs, (cmd, args) :: cmds => do
    let r ← cmd.exec fs args
    r.fs.run cmds

end DahleOS
