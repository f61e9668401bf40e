import DahleOS.Model.Commands

/-!
# Matrices (`shell/commands.c`)

The variables of `matrix`, its parser, the determinant and the command.
-/

namespace DahleOS

open CArray

/-- `matrix_t`. `MATRIX_MAX_DIM` is 4. -/
structure MatrixT where
  rows : Int32
  cols : Int32
  data : Fin 4 → Fin 4 → Int32

/-- `memset(&m, 0, sizeof(m))`. -/
def MatrixT.zero : MatrixT := ⟨0, 0, fun _ _ => 0⟩

/-- `matrix_var_t`. `MATRIX_NAME_MAX` is 16. -/
structure MatrixVar where
  name : Fin 16 → UInt8
  mat : MatrixT

/-- `matrix_vars` and `matrix_var_count`. `MATRIX_VAR_MAX` is 8. -/
structure MatrixVars where
  vars : Fin 8 → MatrixVar
  count : Int32

/-- The table at power-on. -/
def MatrixVars.zero : MatrixVars := ⟨fun _ => ⟨fun _ => 0, .zero⟩, 0⟩

/-- `matrix_find_var`: the index of the variable. -/
def matrixFindVar (t : MatrixVars) (name : Str) : Option (Option ℕ) :=
  let test (v : MatrixVar) : Option Bool := do
    let s ← cstr v.name
    return strcmp s name = 0
  findSlot t.vars test 0 t.count.toInt.toNat

/-! ## The parser -/

/-- The elements in `matrix_parse_inline`, from number `e` on with `todo` left; an element is
read from 11 characters at most. The inner `none` is a missing one. -/
def matrixElements (dim : ℕ) : (e todo : ℕ) → Str → MatrixT → Option (Option (MatrixT × Str))
  | _, 0, s, m => some (some (m, s))
  | e, todo + 1, s, m =>
    let etok := word 11 s
    let s := skipSpaces (s.drop etok.length)
    if etok = [] then some none
    else do
      let data ← wr2 m.data (e / dim : ℕ) (e % dim : ℕ) (strToInt etok)
      matrixElements dim (e + 1) todo s { m with data }

/-- `matrix_parse_inline`: the matrix and the rest of the text; the inner `none` is a null
pointer. -/
def matrixParseInline (args : Str) (m : MatrixT) : Option (Option (MatrixT × Str)) :=
  if args = [] then some none
  else
    let tok := word 11 args
    let dim := strToInt tok
    if dim < 1 ∨ 4 < dim then some none
    else
      let n := dim.toInt.toNat
      matrixElements n 0 (n * n) (skipSpaces (args.drop tok.length)) { m with rows := dim, cols := dim }

/-! ## The determinant -/

/-- Row `r` of the minor without column `j`: columns `c` on, `todo` of them, go to `mc` on. -/
def minorRow (data : Fin 4 → Fin 4 → Int32) (j r : ℕ) :
    (c mc todo : ℕ) → (Fin 4 → Fin 4 → Int32) → Option (Fin 4 → Fin 4 → Int32)
  | _, _, 0, minor => some minor
  | c, mc, todo + 1, minor =>
    if c = j then minorRow data j r (c + 1) mc todo minor
    else do
      let v ← rd2 data r c
      let minor ← wr2 minor (r - 1 : ℕ) mc v
      minorRow data j r (c + 1) (mc + 1) todo minor

/-- The rows of the minor, from `r` on with `todo` left, of a matrix with `n` columns. -/
def minorRows (data : Fin 4 → Fin 4 → Int32) (j n : ℕ) :
    (r todo : ℕ) → (Fin 4 → Fin 4 → Int32) → Option (Fin 4 → Fin 4 → Int32)
  | _, 0, minor => some minor
  | r, todo + 1, minor => do
    let minor ← minorRow data j r 0 0 n minor
    minorRows data j n (r + 1) todo minor

/-- The loop over the first row in `matrix_det`, from column `j` on with `todo` left; `minorDet`
is the recursive call. -/
def detLoop (minorDet : MatrixT → Option Int32) (m : MatrixT) (n : ℕ) : (j todo : ℕ) → (det : Int32) → Option Int32
  | _, 0, det => some det
  | j, todo + 1, det => do
    let data ← minorRows m.data j n 1 (n - 1) fun _ _ => 0
    let sign : Int32 := if j % 2 = 0 then 1 else -1
    let v ← rd2 m.data 0 j
    let d ← minorDet ⟨m.rows - 1, m.rows - 1, data⟩
    detLoop minorDet m n (j + 1) todo (det + sign * v * d)

/-- `matrix_det`, with `depth` nested calls at most. -/
def matrixDetDepth : (depth : ℕ) → MatrixT → Option Int32
  | 0, _ => none
  | depth + 1, m =>
    if m.rows = 1 then rd2 m.data 0 0
    else if m.rows = 2 then do
      let a ← rd2 m.data 0 0
      let b ← rd2 m.data 0 1
      let c ← rd2 m.data 1 0
      let d ← rd2 m.data 1 1
      return a * d - b * c
    else
      let n := m.rows.toInt.toNat
      detLoop (matrixDetDepth depth) m n 0 n 0

/-- `matrix_det`. More rows than 4 leave the array. -/
def matrixDet (m : MatrixT) : Option Int32 := matrixDetDepth 4 m

/-! ## Printing -/

/-- A row in `matrix_print`, from column `c` on with `todo` left. -/
def matrixRowText (data : Fin 4 → Fin 4 → Int32) (r : ℕ) : (c todo : ℕ) → Option Str
  | _, 0 => some []
  | c, todo + 1 => do
    let v ← rd2 data r c
    let rest ← matrixRowText data r (c + 1) todo
    return intToStr v ++ str " " ++ rest

/-- The rows in `matrix_print`, from `r` on with `todo` left. -/
def matrixRowsText (m : MatrixT) : (r todo : ℕ) → Option Str
  | _, 0 => some []
  | r, todo + 1 => do
    let row ← matrixRowText m.data r 0 m.cols.toInt.toNat
    let rest ← matrixRowsText m (r + 1) todo
    return str "  [ " ++ row ++ str "]\n" ++ rest

/-- `matrix_print`. -/
def matrixPrint (m : MatrixT) : Option Str := matrixRowsText m 0 m.rows.toInt.toNat

/-! ## The command -/

/-- What `matrix_do_op` prints. -/
inductive MatrixOpMsg
  | det (value : Int32)
  | notSquare
  | unknown (op : Str)

/-- The text of it. -/
def MatrixOpMsg.text : MatrixOpMsg → Str
  | det value => str "det = " ++ intToStr value ++ str "\n"
  | notSquare => str "Error: determinant requires a square matrix.\n"
  | unknown op => str "Unknown operation '" ++ op ++ str "'. Available: det\n"

/-- `matrix_do_op`. -/
def matrixDoOp (m : MatrixT) (op : Str) : Option MatrixOpMsg :=
  if strcmp op (str "det") = 0 then
    if m.rows ≠ m.cols then some .notSquare else (matrixDet m).map .det
  else some (.unknown op)

/-- What `cmd_matrix` prints. -/
inductive MatrixMsg
  | usage
  | noVariables
  | listing (entries : List (Str × Int32 × Int32 × Str))
  | storeUsage
  | missingStoreName
  | invalidData
  | full
  | stored (name : Str)
  | missingName
  | notFound (name : Str)
  | missingRefOperation
  | noMatrix
  | missingOperation
  | operated (printed : Str) (result : MatrixOpMsg)

/-- The text of it. -/
def MatrixMsg.text : MatrixMsg → Str
  | usage => str "Usage:\n" ++
      str "  matrix <dim> <elements...> <op>         inline\n" ++
      str "  matrix matrix:<name> <op>               use stored variable\n" ++
      str "  matrix store <name> <dim> <elements...> save variable\n" ++
      str "  matrix list                             show all variables\n" ++
      str "Operations: det\n" ++ str "Example: matrix 2 1 2 3 4 det\n"
  | noVariables => str "No matrix variables stored.\n"
  | listing entries => entries.flatMap fun (name, rows, cols, printed) =>
      name ++ str " (" ++ intToStr rows ++ str "x" ++ intToStr cols ++ str "):\n" ++ printed
  | storeUsage => str "Usage: matrix store <name> <dim> <elements...>\n"
  | missingStoreName => str "Error: missing variable name.\n"
  | invalidData => str "Error: invalid matrix data.\n" ++ str "Usage: matrix store <name> <dim> <elements...>\n"
  | full => str "Error: variable table full (max " ++ intToStr 8 ++ str ").\n"
  | stored name => str "Stored as '" ++ name ++ str "'.\n"
  | missingName => str "Error: missing variable name after 'matrix:'.\n"
  | notFound name => str "Error: no matrix variable named '" ++ name ++ str "'.\n"
  | missingRefOperation => str "Error: missing operation. Available: det\n"
  | noMatrix => str "Error: could not parse matrix.\n" ++ str "Usage: matrix <dim> <elements...> <op>\n" ++
      str "Example: matrix 2 1 2 3 4 det\n"
  | missingOperation => str "Error: missing operation.\n"
  | operated printed result => printed ++ result.text

/-- `matrix_print` and `matrix_do_op`, in this order. -/
def matrixOperate (m : MatrixT) (op : Str) : Option MatrixMsg := do
  let printed ← matrixPrint m
  let result ← matrixDoOp m op
  return .operated printed result

/-- The listing of `cmd_matrix`, from variable `v` on with `todo` left. -/
def matrixListFrom (t : MatrixVars) : (v todo : ℕ) → Option (List (Str × Int32 × Int32 × Str))
  | _, 0 => some []
  | v, todo + 1 => do
    let var ← rd t.vars v
    let name ← cstr var.name
    let printed ← matrixPrint var.mat
    let rest ← matrixListFrom t (v + 1) todo
    return (name, var.mat.rows, var.mat.cols, printed) :: rest

/-- The branch of `cmd_matrix` that stores a variable. The name is read from 15 characters
at most. -/
def matrixStore (t : MatrixVars) (rest : Str) : Option (MatrixMsg × MatrixVars) :=
  if rest = [] then some (.storeUsage, t)
  else
    let name := word 15 rest
    if name = [] then some (.missingStoreName, t)
    else do
      match ← matrixParseInline (skipSpaces (rest.drop name.length)) .zero with
      | none => return (.invalidData, t)
      | some (m, _) =>
        match ← matrixFindVar t name with
        | some i =>
          let v ← rd t.vars i
          let vars ← wr t.vars i { v with mat := m }
          return (.stored name, { t with vars })
        | none =>
          if 8 ≤ t.count then return (.full, t)
          let v ← rd t.vars t.count.toInt
          let vars ← wr t.vars t.count.toInt ⟨strncpy v.name name 15, m⟩
          return (.stored name, ⟨vars, t.count + 1⟩)

/-- The branch of `cmd_matrix` that uses a stored variable. -/
def matrixReference (t : MatrixVars) (name rest : Str) : Option MatrixMsg :=
  if name = [] then some .missingName
  else do
    match ← matrixFindVar t name with
    | none => return .notFound name
    | some i =>
      if rest = [] then return .missingRefOperation
      let v ← rd t.vars i
      matrixOperate v.mat rest

/-- The branch of `cmd_matrix` that reads a matrix. -/
def matrixInline (args : Str) : Option MatrixMsg := do
  match ← matrixParseInline args .zero with
  | none => return .noMatrix
  | some (m, op) =>
    let op := skipSpaces op
    if op = [] then return .missingOperation
    matrixOperate m op

/-- `cmd_matrix`. -/
def cmdMatrix (t : MatrixVars) (args : Str) : Option (MatrixMsg × MatrixVars) :=
  if args = [] then some (.usage, t)
  else
    let tok := word 31 args
    let rest := skipSpaces (args.drop tok.length)
    if strcmp tok (str "list") = 0 then do
      if t.count = 0 then return (.noVariables, t)
      let entries ← matrixListFrom t 0 t.count.toInt.toNat
      return (.listing entries, t)
    else if strcmp tok (str "store") = 0 then matrixStore t rest
    else if str "matrix:" <+: tok then do
      let msg ← matrixReference t (tok.drop 7) rest
      return (msg, t)
    else do
      let msg ← matrixInline args
      return (msg, t)

end DahleOS
