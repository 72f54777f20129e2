/-
The labels in the output of pico-c, `pico-c-arm64.s`.  Of a program only that is kept which
defines a label, moves a counter or has the compiler stop.
-/
import Veron.PicoCApply

namespace Veron.PicoC.Labels

/-- The characters of identifiers. -/
def inName (c : Char) : Bool := c.isAlphanum || c = '_'

/-- An identifier of the program. -/
structure Name where
  text : List Char
  ok : text ≠ [] ∧ ∀ c ∈ text, inName c = true
deriving DecidableEq

/-- The routines that are put into the output when they are called and not defined. -/
inductive Routine where
  | calloc
  | free
  | open
  | read
  | write
  | close
  | exit
  | brk
  | chmod
deriving DecidableEq

def Routine.text : Routine → List Char
  | calloc => ['c', 'a', 'l', 'l', 'o', 'c']
  | free => ['f', 'r', 'e', 'e']
  | .open => ['o', 'p', 'e', 'n']
  | read => ['r', 'e', 'a', 'd']
  | write => ['w', 'r', 'i', 't', 'e']
  | close => ['c', 'l', 'o', 's', 'e']
  | exit => ['e', 'x', 'i', 't']
  | brk => ['b', 'r', 'k']
  | chmod => ['c', 'h', 'm', 'o', 'd']

/-- A label by what it is for. -/
inductive Label where
  | function (f : Name)
  | numbered (n : ℕ)
  /-- The bytes of a string, and what is behind them. -/
  | string (n : ℕ)
  | stringSkip (n : ℕ)
  | global (x : Name)
  | globalSkip (x : Name)
  /-- A label for `goto`, with the number of its function. -/
  | goto (f : ℕ) (l : Name)
  | routine (r : Routine)
  /-- The two labels within `calloc`. -/
  | callocHave
  | callocPointer
deriving DecidableEq

/-- `emitoff`, four digits; what counts the thousands is a byte. -/
def emitoff (n : ℕ) : List Char :=
  [Char.ofNat ((n / 1000 + 48) % 256), Char.ofNat (n / 100 % 10 + 48),
    Char.ofNat (n / 10 % 10 + 48), Char.ofNat (n % 10 + 48)]

/-- What is written between the colon and the end of the line. -/
def Label.text : Label → List Char
  | function f => f.text
  | numbered n => ['_', '_', 'L'] ++ p6l 9 n []
  | string n => ['_', '_', 'd'] ++ emitoff n
  | stringSkip n => ['_', '_', 'd', 's'] ++ emitoff n
  | global x => ['g', '_'] ++ x.text
  | globalSkip x => ['_', '_', 'g', 's'] ++ x.text
  | goto f l => ['_', '_', 'L', 'g'] ++ (emitoff f ++ '_' :: l.text)
  | routine r => r.text
  | callocHave => ['_', '_', 'c', 'c', '_', 'h', 'a', 'v', 'e']
  | callocPointer => ['_', '_', 'm', 'p']

/-- The characters at which the label resolver ends a name. -/
def isSep (c : Char) : Bool := c = ' ' || c = '\t' || c = '\n'

/-- The label as the label resolver reads it. -/
def Label.name (l : Label) : List Char := l.text.takeWhile fun c => !isSep c

/-- What of an expression has labels, in the order in which it is read. -/
inductive Expr where
  | plain
  | string
  /-- A call of what is no variable. -/
  | call (f : Name) (args : Expr)
  | both (a b : Expr)
  /-- `&&` and `||`. -/
  | short (a b : Expr)

inductive Stmt where
  | expr (e : Expr)
  | label (l : Name)
  | seq (a b : Stmt)
  /-- A block that is no body. -/
  | block (s : Stmt)
  | ifThen (c : Expr) (a : Stmt)
  | ifElse (c : Expr) (a b : Stmt)
  | while (c : Expr) (s : Stmt)
  | doWhile (s : Stmt) (c : Expr)
  | for (init cond step : Expr) (s : Stmt)
  | break
  | continue

inductive Definition where
  | global (x : Name)
  | function (f : Name) (body : Stmt)

/-- The innermost loop, as far as `continue` is concerned. -/
inductive Loop where
  | outside
  /-- `while` and `for` have their label from the start. -/
  | given
  /-- `do` gets it at the first `continue`. -/
  | atNeed (label : Option ℕ)
deriving DecidableEq

/-- The counters at `x19 + 61440 + (2055 << 16)`, the names that were called, and what is kept of
the block stack. -/
structure State where
  strings : ℕ
  function : ℕ
  count : ℕ
  called : List Name
  loop : Loop

/-- The labels that something defines, or none where the compiler stops. -/
abbrev Emits := State → Option (List Label × State)

def skip : Emits := fun st => some ([], st)

def emit (l : Label) : Emits := fun st => some ([l], st)

def Emits.then (a b : Emits) : Emits := fun st =>
  (a st).bind fun r => (b r.2).map fun r' => (r.1 ++ r'.1, r'.2)

/-- With the next number; `pos6` refuses those that are too large. -/
def newlbl (e : ℕ → Emits) : Emits := fun st =>
  if 1000000000 ≤ st.count then none else e st.count { st with count := st.count + 1 }

/-- `emitstrlit`. -/
def emitstrlit : Emits := fun st =>
  some ([.string st.strings, .stringSkip st.strings], { st with strings := st.strings + 1 })

def Expr.emits : Expr → Emits
  | plain => skip
  | string => emitstrlit
  | call f args => args.emits.then fun st => some ([], { st with called := f :: st.called })
  | both a b => a.emits.then b.emits
  | short a b => a.emits.then <| newlbl fun n => b.emits.then <| emit (.numbered n)

/-- What is inside of a loop, and behind it the label that `continue` has asked for. -/
def inLoop (loop : Loop) (body : Emits) : Emits := fun st =>
  (body { st with loop := loop }).map fun r =>
    match r.2.loop with
    | .atNeed (some n) => (r.1 ++ [.numbered n], { r.2 with loop := st.loop })
    | _ => (r.1, { r.2 with loop := st.loop })

/-- `dobreak`. -/
def dobreak : Emits := fun st => if st.loop = .outside then none else some ([], st)

/-- `docontinue`. -/
def docontinue : Emits := fun st =>
  match st.loop with
  | .outside => none
  | .atNeed none => newlbl (fun n st => some ([], { st with loop := .atNeed (some n) })) st
  | _ => some ([], st)

def Stmt.emits : Stmt → Emits
  | .expr e => e.emits
  | .label l => fun st => some ([.goto st.function l], st)
  | .seq a b => a.emits.then b.emits
  | .block s => s.emits
  | .ifThen c a => c.emits.then <| newlbl fun n => a.emits.then <| emit (.numbered n)
  | .ifElse c a b => c.emits.then <| newlbl fun n => a.emits.then <| newlbl fun m =>
      (emit (.numbered n)).then <| b.emits.then <| emit (.numbered m)
  | .while c s => newlbl fun n => (emit (.numbered n)).then <| c.emits.then <| newlbl fun m =>
      (inLoop .given s.emits).then <| emit (.numbered m)
  | .doWhile s c => newlbl fun n => (emit (.numbered n)).then <| newlbl fun m =>
      (inLoop (.atNeed none) s.emits).then <| c.emits.then <| emit (.numbered m)
  | .for init cond step s => init.emits.then <| newlbl fun top => newlbl fun exit =>
      newlbl fun next => newlbl fun body =>
        (emit (.numbered top)).then <| cond.emits.then <| (emit (.numbered next)).then <|
          step.emits.then <| (emit (.numbered body)).then <|
            (inLoop .given s.emits).then <| emit (.numbered exit)
  | .break => dobreak
  | .continue => docontinue

/-- How many records of the block stack a statement takes; the clauses of a `for` take one each,
before its body does. -/
def Stmt.depth : Stmt → ℕ
  | .expr _ => 0
  | .label _ => 0
  | .seq a b => max a.depth b.depth
  | .block s => s.depth + 1
  | .ifThen _ a => a.depth + 1
  | .ifElse _ a b => max a.depth b.depth + 1
  | .while _ s => s.depth + 1
  | .doWhile s _ => s.depth + 1
  | .for _ _ _ s => s.depth + 1
  | .break => 0
  | .continue => 0

def Definition.depth : Definition → ℕ
  | global _ => 0
  | function _ body => body.depth

/-- The records, of 24 bytes each, lie within the 4096 bytes of the block stack. -/
def Shallow (ds : List Definition) : Prop := ∀ d ∈ ds, 24 * d.depth ≤ 4096

instance (ds : List Definition) : Decidable (Shallow ds) := List.decidableBAll _ ds

def Definition.emits : Definition → Emits
  | global x => (emit (.global x)).then <| emit (.globalSkip x)
  | function f body => fun st =>
      ((emit (.function f)).then <| inLoop .outside body.emits)
        { st with function := st.function + 1 }

def definitions : List Definition → Emits
  | [] => skip
  | d :: ds => d.emits.then (definitions ds)

/-- The functions that are defined, which set the `udef` flags. -/
def functions : List Definition → List Name
  | [] => []
  | .global _ :: ds => functions ds
  | .function f _ :: ds => f :: functions ds

def Routine.labels : Routine → List Label
  | .calloc => [.routine .calloc, .callocHave, .callocPointer]
  | r => [.routine r]

/-- The order of `emit_runtime`. -/
def routines : List Routine := [.calloc, .free, .open, .read, .write, .close, .exit, .brk, .chmod]

/-- Called and not defined. -/
def Routine.Linked (r : Routine) (called defined : List Name) : Prop :=
  r.text ∈ called.map Name.text ∧ r.text ∉ defined.map Name.text

instance (r : Routine) (called defined : List Name) : Decidable (r.Linked called defined) :=
  inferInstanceAs (Decidable (_ ∧ _))

/-- `emit_runtime`. -/
def emitRuntime (called defined : List Name) : List Label :=
  (routines.filter fun r => r.Linked called defined).flatMap Routine.labels

def State.start : State := ⟨0, 0, 0, [], .outside⟩

/-- The labels of a program, in the order of the output. There are none where the compiler stops,
and none are told where the block stack runs over its end, which nothing checks: the next record
lies in the table of local symbols, and that is not kept here. -/
def labels (ds : List Definition) : Option (List Label) :=
  if Shallow ds then
    (definitions ds .start).map fun r => r.1 ++ emitRuntime r.2.called (functions ds)
  else none

end Veron.PicoC.Labels
