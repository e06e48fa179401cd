/-
The reader of isl (`isl_input.c`) for sets and maps.

The texts of the pass use a part of the grammar only.  A parenthesis stands
right after `or` and nowhere else, no operator `% / ^ ? =` and no list of
expressions before a comparison occurs, and the first token after the opening
brace is the name of a tuple or the closing brace.  The productions that need
the others (`min(..)`, `floor(..)`, `exists x : ..`, parameters, `aff : cond`
inside a tuple, nested tuples, ternary operators) are left out: where isl goes
on after such a token, the functions below give up.
-/
import PolyhedralPass.Isl.Stream

namespace PolyhedralPass.Isl

abbrev Stream := List Token

/-- The identifiers in scope by position; an unnamed position holds `none`. -/
abbrev Vars := List (Option String)

/-- `vars_pos` on a name that is in scope. -/
def varsPos (vars : Vars) (name : String) : Option Nat :=
  vars.findIdx? (· == some name)

/-- `accept_cst_factor`: the constants that may follow `factor *`. -/
def acceptCstFactor (f : Int) : Stream → Option (Int × Stream)
  | .char '-' :: .value n :: .char '*' :: s => acceptCstFactor (-f * n) s
  | .char '-' :: .value n :: s => some (-f * n, s)
  | .value n :: .char '*' :: s => acceptCstFactor (f * n) s
  | .value n :: s => some (f * n, s)
  | _ => none

/-- The end of `accept_affine_factor`, after the factor itself. -/
def factorTail (res : Aff) : Stream → Option (Aff × Stream)
  | .char '*' :: s => (acceptCstFactor 1 s).map fun (f, s) => (.scale f res, s)
  | .char '%' :: _ => none
  | .char '/' :: _ => none
  | .keyword .mod _ :: _ => none
  | s => some (res, s)

def acceptAffineFactor (vars : Vars) : Stream → Option (Aff × Stream)
  | .aff expr :: s => factorTail expr s
  | .ident name :: s => (varsPos vars name).bind fun pos => factorTail (.var pos) s
  | .value n :: .char '*' :: .char '-' :: s =>
      (acceptAffineFactor vars s).bind fun (res, s) => factorTail (.scale (-n) res) s
  | .value n :: .char '*' :: s =>
      (acceptAffineFactor vars s).bind fun (res, s) => factorTail (.scale n res) s
  | .value n :: .ident name :: s =>
      (acceptAffineFactor vars (.ident name :: s)).bind fun (res, s) =>
        factorTail (.scale n res) s
  | .value n :: s => factorTail (.cst n) s
  | _ => none

/-- The end of the loop of `accept_affine`: a sign goes on with another term. -/
def affineNext (loop : Aff → Bool → Stream → Option (Aff × Stream)) (res : Aff) :
    Stream → Option (Aff × Stream)
  | .char '-' :: s => loop res true s
  | .char '+' :: s => loop res false s
  | s => some (res, s)

/-- The loop of `accept_affine`.  `negOp` says that the operator before the
term is a minus, `negSign` that an odd number of signs has been read since. -/
def affineLoop (vars : Vars) :
    Nat → Aff → (negOp negSign : Bool) → Stream → Option (Aff × Stream)
  | 0, _, _, _, _ => none
  | _ + 1, _, _, _, [] => none
  | fuel + 1, res, negOp, negSign, tok :: s =>
      let next := affineNext fun res negOp s => affineLoop vars fuel res negOp false s
      match tok with
      | .char '-' => affineLoop vars fuel res negOp (!negSign) s
      | .keyword .nan _ => next (.add res .nan) s
      | .value n =>
          -- the sign has gone into the number
          (acceptAffineFactor vars (.value (if negSign then -n else n) :: s)).bind
            fun (term, s) => next (if negOp then .sub res term else .add res term) s
      | tok =>
          (acceptAffineFactor vars (tok :: s)).bind fun (term, s) =>
            next (if negOp != negSign then .sub res term else .add res term) s

/-- `accept_affine` -/
def acceptAffine (vars : Vars) (s : Stream) : Option (Aff × Stream) :=
  affineLoop vars (s.length + 1) (.cst 0) false false s

section Formulas

-- Whether `==` counts as a comparison operator.  The isl of the repository does
-- not accept it: `is_comparator` has no case for `ISL_TOKEN_EQ_EQ`.
variable (eqEq : Bool)

/-- `is_comparator`, with the comparison the token stands for.  On lists of one
expression the lexicographic operators compare like the plain ones. -/
def comparator? : Token → Option Comparator
  | .lt => some .lt
  | .gt => some .gt
  | .le => some .le
  | .ge => some .ge
  | .lexLt => some .lt
  | .lexGt => some .gt
  | .lexLe => some .le
  | .lexGe => some .ge
  | .char '=' => some .eq
  | .eqEq => if eqEq then some .eq else none
  | _ => none

/-- The loop of `add_constraint`: `lhs op` has been read, and a further
operator chains the comparisons. -/
def constraintChain (vars : Vars) :
    Nat → Aff → Comparator → Stream → Option (Formula × Stream)
  | 0, _, _, _ => none
  | fuel + 1, lhs, op, s =>
      (acceptAffine vars s).bind fun (rhs, s) =>
        match s with
        | [] => none
        | tok :: rest =>
            match comparator? eqEq tok with
            | none => some (.cmp op lhs rhs, tok :: rest)
            | some op' => (constraintChain vars fuel rhs op' rest).map fun (cond, s) =>
                (.and (.cmp op lhs rhs) cond, s)

/-- `add_constraint` -/
def addConstraint (vars : Vars) (s : Stream) : Option (Formula × Stream) :=
  (acceptAffine vars s).bind fun (lhs, s) =>
    match s with
    | [] => none
    | tok :: s => (comparator? eqEq tok).bind fun op =>
        constraintChain eqEq vars s.length lhs op s

/-- `isl_stream_eat` on a single-character token. -/
def eat (c : Char) : Stream → Option Stream
  | .char c' :: s => if c = c' then some s else none
  | _ => none

/-- `next_is_condition_start` -/
def nextIsConditionStart : Stream → Bool
  | .keyword .existsQuant _ :: _ => true
  | .keyword .not _ :: _ => true
  | .keyword .true _ :: _ => true
  | .keyword .false _ :: _ => true
  | .map _ :: _ => true
  | _ => false

/-- A reader of conditions; the functions below take the one for the text
between parentheses. -/
abbrev FormulaReader := Stream → Option (Formula × Stream)

/-- `resolve_paren_expr` after the opening parenthesis: the result of what
stands between the parentheses is pushed back on the stream. -/
def resolveParenExpr (readFormula : FormulaReader) (vars : Vars) (s : Stream) :
    Option Stream :=
  if nextIsConditionStart s then
    (readFormula s).bind fun (cond, s) => (eat ')' s).map fun s => .map cond :: s
  else
    (acceptAffine vars s).bind fun (expr, s) =>
      match s with
      | .char ')' :: s => some (.aff expr :: s)
      | s => (readFormula (.aff expr :: s)).bind fun (cond, s) =>
          (eat ')' s).map fun s => .map cond :: s

/-- `read_conjunct` once no parenthesis is left in front. -/
def readSimpleConjunct (vars : Vars) : FormulaReader
  | .map cond :: s => some (cond, s)
  | .keyword .existsQuant _ :: _ => none
  | .keyword .true _ :: s => some (.tt, s)
  | .keyword .false _ :: s => some (.ff, s)
  | s => addConstraint eqEq vars s

/-- `read_conjunct` -/
def readConjunct (readFormula : FormulaReader) (vars : Vars) : FormulaReader
  | .char '(' :: s =>
      (resolveParenExpr readFormula vars s).bind (readSimpleConjunct eqEq vars)
  | s => readSimpleConjunct eqEq vars s

/-- An optional `not` and a conjunct. -/
def readNegatedConjunct (readFormula : FormulaReader) (vars : Vars) : FormulaReader
  | .keyword .not _ :: s =>
      (readConjunct eqEq readFormula vars s).map fun (cond, s) => (.not cond, s)
  | s => readConjunct eqEq readFormula vars s

/-- `read_conjuncts` -/
def readConjuncts (readFormula : FormulaReader) (vars : Vars) : Nat → FormulaReader
  | 0, _ => none
  | fuel + 1, s =>
      (readNegatedConjunct eqEq readFormula vars s).bind fun (cond, s) =>
        match s with
        | .keyword .and _ :: s =>
            (readConjuncts readFormula vars fuel s).map fun (rest, s) =>
              (.and cond rest, s)
        | s => some (cond, s)

/-- The loop of `read_disjuncts`. -/
def readDisjunctsLoop (readFormula : FormulaReader) (vars : Vars) : Nat → FormulaReader
  | 0, _ => none
  | fuel + 1, s =>
      (readConjuncts eqEq readFormula vars (s.length + 1) s).bind fun (cond, s) =>
        match s with
        | .keyword .or _ :: s =>
            (readDisjunctsLoop readFormula vars fuel s).map fun (rest, s) =>
              (.or cond rest, s)
        | s => some (cond, s)

/-- `read_disjuncts` -/
def readDisjuncts (readFormula : FormulaReader) (vars : Vars) : FormulaReader
  | .char '}' :: s => some (.tt, .char '}' :: s)
  | s => readDisjunctsLoop eqEq readFormula vars (s.length + 1) s

/-- `read_formula`, to a nesting depth of parentheses. -/
def readFormula (vars : Vars) : Nat → FormulaReader
  | 0, _ => none
  | depth + 1, s =>
      (readDisjuncts eqEq (readFormula vars depth) vars s).bind fun (cond, s) =>
        match s with
        | .keyword .implies _ :: s =>
            (readDisjuncts eqEq (readFormula vars depth) vars s).map fun (conseq, s) =>
              (.or (.not cond) conseq, s)
        | s => some (cond, s)

/-- `read_optional_formula` -/
def readOptionalFormula (vars : Vars) : FormulaReader
  | [] => none
  | .char ':' :: s => readFormula eqEq vars (s.length + 1) s
  | s => some (.tt, s)

/-- `read_tuple_var_def`: the position is unnamed and equal to an expression. -/
def readTupleVarDef (vars : Vars) (s : Stream) : Option (Option Aff × Vars × Stream) :=
  let vars := vars ++ [none]
  (acceptAffine vars s).bind fun (expr, s) =>
    match s with
    | .char ':' :: _ => none
    | tok :: s =>
        match comparator? eqEq tok with
        | some _ => none
        | none => some (some expr, vars, tok :: s)
    | [] => some (some expr, vars, [])

/-- `read_tuple_pw_aff_el`: an identifier that is not in scope names the
position, anything else is an expression the position is equal to. -/
def readTupleEl (vars : Vars) : Stream → Option (Option Aff × Vars × Stream)
  | [] => none
  | .ident name :: s =>
      match varsPos vars name with
      | some _ => readTupleVarDef eqEq vars (.ident name :: s)
      | none =>
          match s with
          | .char '=' :: _ => none
          | s => some (none, vars ++ [some name], s)
  | .char '*' :: s => some (none, vars ++ [none], s)
  | s => readTupleVarDef eqEq vars s

/-- The loop of `read_tuple_list`. -/
def readTupleList :
    Nat → Vars → Stream → Option (List (Option Aff) × Vars × Stream)
  | 0, _, _ => none
  | fuel + 1, vars, s =>
      (readTupleEl eqEq vars s).bind fun (elem, vars, s) =>
        match s with
        | .char ',' :: s => (readTupleList fuel vars s).map fun (elems, vars, s) =>
            (elem :: elems, vars, s)
        | s => some ([elem], vars, s)

/-- The inside of the brackets of a tuple and the closing bracket. -/
def readTupleBody (name : String) (vars : Vars) :
    Stream → Option (Tuple × Vars × Stream)
  | .char ']' :: s => some (⟨name, []⟩, vars, s)
  | s => (readTupleList eqEq (s.length + 1) vars s).bind fun (elems, vars, s) =>
      (eat ']' s).map fun s => (⟨name, elems⟩, vars, s)

/-- `read_tuple`; a keyword may name a tuple too. -/
def readTuple (vars : Vars) : Stream → Option (Tuple × Vars × Stream)
  | .ident name :: .char '[' :: s => readTupleBody eqEq name vars s
  | .keyword _ name :: .char '[' :: s => readTupleBody eqEq name vars s
  | _ => none

/-- `obj_read_body` -/
def objReadBody (s : Stream) : Option (Body × Stream) :=
  (readTuple eqEq [] s).bind fun (dom, vars, s) =>
    match s with
    | .to :: s => (readTuple eqEq vars s).bind fun (ran, vars, s) =>
        (readOptionalFormula eqEq vars s).map fun (cond, s) => (.map dom ran cond, s)
    | s => (readOptionalFormula eqEq vars s).map fun (cond, s) => (.set dom cond, s)

/-- The loop of `obj_read_disjuncts`. -/
def objReadDisjunctsLoop : Nat → Stream → Option (List Body × Stream)
  | 0, _ => none
  | fuel + 1, s =>
      (objReadBody eqEq s).bind fun (body, s) =>
        match s with
        | .char ';' :: .char '}' :: s => some ([body], .char '}' :: s)
        | .char ';' :: s => (objReadDisjunctsLoop fuel s).map fun (bodies, s) =>
            (body :: bodies, s)
        | s => some ([body], s)

/-- `obj_read_disjuncts` -/
def objReadDisjuncts : Stream → Option (List Body × Stream)
  | .char '}' :: s => some ([], .char '}' :: s)
  | s => objReadDisjunctsLoop eqEq (s.length + 1) s

/-- `obj_read`; what follows the closing brace is not looked at. -/
def objRead : Stream → Option (List Body)
  | .char '{' :: s => (objReadDisjuncts eqEq s).bind fun (bodies, s) =>
      (eat '}' s).map fun _ => bodies
  | _ => none

def Body.isMap : Body → Bool
  | .map _ _ _ => true
  | .set _ _ => false

/-- `isl_union_set_read_from_str`: `none` is `NULL`. -/
def unionSetReadFromStr (str : String) : Option UnionSet :=
  (objRead eqEq (tokens str.toList)).bind fun bodies =>
    if bodies.any Body.isMap then none
    else some { point | ∃ body ∈ bodies, point ∈ body.toUnionSet }

/-- `isl_union_map_read_from_str`: `none` is `NULL`. -/
def unionMapReadFromStr (str : String) : Option UnionMap :=
  (objRead eqEq (tokens str.toList)).bind fun bodies =>
    if bodies.all Body.isMap then
      some { pair | ∃ body ∈ bodies, pair ∈ body.toUnionMap }
    else none

end Formulas

example : objRead false (tokens "\x7b Stmt[i, j] : 0 <= i < 4 and -1 <= j \x7d".toList) =
    some [.set ⟨"Stmt", [none, none]⟩
      (.and (.and (.cmp .le (.add (.cst 0) (.cst 0)) (.add (.cst 0) (.var 0)))
          (.cmp .lt (.add (.cst 0) (.var 0)) (.add (.cst 0) (.cst 4))))
        (.cmp .le (.add (.cst 0) (.cst (-1))) (.add (.cst 0) (.var 1))))] := by
  decide

example : objRead false (tokens "\x7b S[i] -> S[i_p] : i == i_p \x7d".toList) = none := by
  decide

end PolyhedralPass.Isl
