/-
The labels in the output of micro-c: how `cc_core.c` names what it defines.  Of a translation
unit only that is kept which defines a label or moves a counter.
-/
import Mathlib.Algebra.Group.Int.Defs
import Mathlib.Data.Nat.Notation

namespace Veron.MicroC.Labels

abbrev Name := List Char

/-- What `int2str` prints of a number without a sign. -/
def unsigned (x : ℤ) : ℕ := (x % 2 ^ 32).toNat

/-- What a numbered label is for. -/
inductive Part where
  | ifElse
  | ifEnd
  | forLoop
  | forIter
  | forThen
  | forEnd
  | doLoop
  | doTest
  | doEnd
  | whileLoop
  | whileEnd
  | settled
  | shortEnd
  | ternaryElse
  | ternaryEnd
  | switchDefault
  | switchTable
  | switchEnd
  | switchCase (value : ℕ)
deriving DecidableEq

def Part.text : Part → Name
  | ifElse => ['E', 'L', 'S', 'E', '_']
  | ifEnd => ['_', 'E', 'N', 'D', '_', 'I', 'F', '_']
  | forLoop => ['F', 'O', 'R', '_']
  | forIter => ['F', 'O', 'R', '_', 'I', 'T', 'E', 'R', '_']
  | forThen => ['F', 'O', 'R', '_', 'T', 'H', 'E', 'N', '_']
  | forEnd => ['F', 'O', 'R', '_', 'E', 'N', 'D', '_']
  | doLoop => ['D', 'O', '_']
  | doTest => ['D', 'O', '_', 'T', 'E', 'S', 'T', '_']
  | doEnd => ['D', 'O', '_', 'E', 'N', 'D', '_']
  | whileLoop => ['W', 'H', 'I', 'L', 'E', '_']
  | whileEnd => ['E', 'N', 'D', '_', 'W', 'H', 'I', 'L', 'E', '_']
  | settled => ['S', 'C', '_', 'S', 'E', 'T', 'T', 'L', 'E', 'D', '_']
  | shortEnd => ['_', 'S', 'C', '_', 'E', 'N', 'D', '_']
  | ternaryElse => ['T', 'E', 'R', 'N', 'A', 'R', 'Y', '_', 'E', 'L', 'S', 'E', '_']
  | ternaryEnd => ['_', 'E', 'N', 'D', '_', 'T', 'E', 'R', 'N', 'A', 'R', 'Y', '_']
  | switchDefault =>
      ['_', 'S', 'W', 'I', 'T', 'C', 'H', '_', 'D', 'E', 'F', 'A', 'U', 'L', 'T', '_']
  | switchTable => ['_', 'S', 'W', 'I', 'T', 'C', 'H', '_', 'T', 'A', 'B', 'L', 'E', '_']
  | switchEnd => ['_', 'S', 'W', 'I', 'T', 'C', 'H', '_', 'E', 'N', 'D', '_']
  | switchCase _ => ['_', 'S', 'W', 'I', 'T', 'C', 'H', '_', 'C', 'A', 'S', 'E', '_']

/-- A label by what it is made of: the function it is in, and the number of what it is for. -/
inductive Label where
  | function (f : Name)
  | part (p : Part) (f : Name) (n : ℕ)
  | goto (l f : Name)
  | string (f : Name) (n : ℕ)
  /-- The text that a global or static pointer is initialised with. -/
  | contents (n : ℕ)
  | global (x : Name)
  | storage (x : Name)
deriving DecidableEq

/-- What `copy_string` copies; a room that is used up before is not noticed. -/
def copyString (source : Name) (room : ℤ) : Name :=
  if 0 < room then source.take room.toNat else source

/-- `concat_strings3` and `concat_strings4`, in a buffer with so much room; what is written behind
the buffer counts as written. -/
def concatStrings : ℤ → List Name → Name
  | _, [] => []
  | room, s :: rest =>
      copyString s room ++ concatStrings (room - (copyString s room).length) rest

section

-- `MAX_STRING`
variable (max : ℕ)

/-- `create_unique_id`. -/
def createUniqueId (start s : Name) (n : ℕ) : Name :=
  concatStrings max [start, s, ['_'], Nat.toDigits 10 n]

/-- `goto_label_name`. -/
def gotoLabelName (l f : Name) : Name := concatStrings max [l, ['_', 'L', '_'], f]

/-- What follows the text of a part. -/
def Part.id (f : Name) (n : ℕ) : Part → Name
  | switchCase value =>
      concatStrings max [Nat.toDigits 10 value, ['_'], createUniqueId max [] f n]
  | _ => createUniqueId max [] f n

def Label.text : Label → Name
  | function f => ['F', 'U', 'N', 'C', 'T', 'I', 'O', 'N', '_'] ++ f
  | part p f n => p.text ++ p.id max f n
  | goto l f => gotoLabelName max l f
  | string f n => createUniqueId max ['S', 'T', 'R', 'I', 'N', 'G', '_'] f n
  | contents n => ['G', 'L', 'O', 'B', 'A', 'L', '_'] ++
      (createUniqueId max ['S', 'T', 'R', '_'] ['g'] n ++
        ['_', 'c', 'o', 'n', 't', 'e', 'n', 't', 's'])
  | global x => ['G', 'L', 'O', 'B', 'A', 'L', '_'] ++ x
  | storage x => ['G', 'L', 'O', 'B', 'A', 'L', '_', 'S', 'T', 'O', 'R', 'A', 'G', 'E', '_'] ++ x

end

/-- What of an expression has labels, in the order in which it is read. -/
inductive Expr where
  | plain
  | string (s : Name)
  /-- `__func__`. -/
  | func
  | both (a b : Expr)
  /-- `&&` and `||`. -/
  | short (a b : Expr)
  | ternary (c a b : Expr)

/-- A global or static variable, and how many texts its initialiser points to. -/
structure Variable where
  name : Name
  isArray : Bool
  texts : ℕ

mutual

/-- A statement; one without labels is an expression, and so is an `else` that is not there. -/
inductive Stmt where
  | expr (e : Expr)
  | static (v : Variable)
  | label (l : Name)
  | seq (a b : Stmt)
  | ite (c : Expr) (a b : Stmt)
  | switch (e : Expr) (body : Items)
  | doWhile (s : Stmt) (c : Expr)
  | while (c : Expr) (s : Stmt)
  | for (init cond iter : Expr) (s : Stmt)

/-- What stands between the braces of a `switch`. -/
inductive Items where
  | done
  | label (l : Name) (rest : Items)
  | case (value : ℤ) (s : Stmt) (rest : Items)
  | default (s : Stmt) (rest : Items)

end

inductive Definition where
  | global (v : Variable)
  | prototype (f : Name)
  | function (f : Name) (body : Stmt)

/-- `current_count`, `strings` and `current_count_global`. -/
structure Counters where
  count : ℕ
  strings : List Name
  globalCount : ℕ

/-- The labels that something defines, from counters on. -/
abbrev Emits := Counters → List Label × Counters

def skip : Emits := fun st => ([], st)

def emit (l : Label) : Emits := fun st => ([l], st)

def Emits.then (a b : Emits) : Emits := fun st => ((a st).1 ++ (b (a st).2).1, (b (a st).2).2)

/-- With the next number of the function. -/
def numbered (e : ℕ → Emits) : Emits := fun st => e st.count { st with count := st.count + 1 }

/-- `add_string_to_string_list`. -/
def addString (f s : Name) : Emits := fun st =>
  if st.strings.contains s then ([], st)
  else ([.string f st.count], { st with count := st.count + 1, strings := s :: st.strings })

def Expr.emits (f : Name) : Expr → Emits
  | plain => skip
  | string s => addString f s
  | func => addString f ('"' :: f)
  | both a b => (a.emits f).then (b.emits f)
  | short a b => (a.emits f).then <| numbered fun n =>
      (b.emits f).then <| (emit (.part .settled f n)).then <| emit (.part .shortEnd f n)
  | ternary c a b => (c.emits f).then <| numbered fun n =>
      (a.emits f).then <| (emit (.part .ternaryElse f n)).then <|
        (b.emits f).then <| emit (.part .ternaryEnd f n)

/-- The texts of `global_value_selection`. -/
def emitTexts : ℕ → Emits
  | 0 => skip
  | n + 1 => Emits.then
      (fun st => ([.contents st.globalCount], { st with globalCount := st.globalCount + 1 }))
      (emitTexts n)

/-- `global_static_array`, under this name. -/
def Variable.emits (x : Name) (v : Variable) : Emits :=
  (emit (.global x)).then <| (if v.isArray then emit (.storage x) else skip).then <|
    emitTexts v.texts

variable (max : ℕ)

/-- The name of a static variable of a function. -/
def staticName (f : Name) (v : Variable) : Name := concatStrings max [f, ['_'], v.name]

mutual

def Stmt.emits (f : Name) : Stmt → Emits
  | .expr e => e.emits f
  | .static v => v.emits (staticName max f v)
  | .label l => emit (.goto l f)
  | .seq a b => (a.emits f).then (b.emits f)
  | .ite c a b => numbered fun n =>
      (c.emits f).then <| (a.emits f).then <| (emit (.part .ifElse f n)).then <|
        (b.emits f).then <| emit (.part .ifEnd f n)
  | .switch e body => numbered fun n =>
      (e.emits f).then <| (body.emits f n).then <|
        (emit (.part .switchTable f n)).then <| emit (.part .switchEnd f n)
  | .doWhile s c => numbered fun n =>
      (emit (.part .doLoop f n)).then <| (s.emits f).then <| (emit (.part .doTest f n)).then <|
        (c.emits f).then <| emit (.part .doEnd f n)
  | .while c s => numbered fun n =>
      (emit (.part .whileLoop f n)).then <| (c.emits f).then <| (s.emits f).then <|
        emit (.part .whileEnd f n)
  | .for init cond iter s => numbered fun n =>
      (init.emits f).then <| (emit (.part .forLoop f n)).then <| (cond.emits f).then <|
        (emit (.part .forIter f n)).then <| (iter.emits f).then <|
          (emit (.part .forThen f n)).then <| (s.emits f).then <| emit (.part .forEnd f n)

def Items.emits (f : Name) (n : ℕ) : Items → Emits
  | .done => skip
  | .label l rest => (emit (.goto l f)).then (rest.emits f n)
  | .case value s rest =>
      (emit (.part (.switchCase (unsigned value)) f n)).then <| (s.emits f).then (rest.emits f n)
  | .default s rest =>
      (emit (.part .switchDefault f n)).then <| (s.emits f).then (rest.emits f n)

end

/-- `declare_function` counts from zero again. -/
def Definition.emits : Definition → Emits
  | global v => v.emits v.name
  | prototype _ => fun st => ([], { st with count := 0 })
  | function f body => fun st =>
      ((emit (.function f)).then (body.emits max f)) { st with count := 0 }

def program : List Definition → Emits
  | [] => skip
  | d :: ds => (d.emits max).then (program ds)

/-- The labels of a translation unit. -/
def labels (ds : List Definition) : List Label := (program max ds ⟨0, [], 0⟩).1

end Veron.MicroC.Labels
