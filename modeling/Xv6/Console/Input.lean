import Mathlib.Data.List.DropRight
import Xv6.Lib.Machine
import Xv6.Lib.Ring

/-! `console.c`: the input side of the console. The interrupt handler edits a line and commits it, and readers
take what is committed, one locked section at a time. The indices `r`, `w` and `e` run freely and wrap at
`2 ^ 32`. Four variables only record what happened: the characters that the handler accepted, the bytes that
readers got (with a control-D for an end of file), those of the current call of every process, and the
results of the calls. -/

namespace Xv6

open Lib Function

def INPUT_BUF : Nat := 128

namespace Console

def newline : UInt8 := 10
def ctrlD : UInt8 := 4

/-- A character as `consoleintr` gets it. -/
abbrev Char32 := BitVec 32

namespace Char32

def ctrlD : Char32 := 4
def ctrlH : Char32 := 8
def newline : Char32 := 10
def carriageReturn : Char32 := 13
def ctrlP : Char32 := 16
def ctrlU : Char32 := 21
def delete : Char32 := 127

def byte (c : Char32) : UInt8 := UInt8.ofNat c.toNat

def translate (c : Char32) : Char32 := if c = carriageReturn then newline else c

end Char32

/-! ### What editing means -/

/-- A character that was accepted, and whether it filled the buffer. -/
structure Key where
  c : Char32
  full : Bool

/-- The committed bytes and the line that can still be edited. -/
structure Edit where
  done : List UInt8
  line : List UInt8

/-- Control-U erases the line, back to a newline if it has one; control-H and delete erase one byte; anything
else is appended, and a newline, a control-D or a full buffer commits the line. -/
def Edit.key (x : Edit) (k : Key) : Edit :=
  if k.c = Char32.ctrlU then ⟨x.done, x.line.rdropWhile (· ≠ newline)⟩
  else if k.c = Char32.ctrlH ∨ k.c = Char32.delete then ⟨x.done, x.line.dropLast⟩
  else if k.c.translate = Char32.newline ∨ k.c.translate = Char32.ctrlD ∨ k.full then
    ⟨x.done ++ (x.line ++ [k.c.translate.byte]), []⟩
  else ⟨x.done, x.line ++ [k.c.translate.byte]⟩

def edit (ks : List Key) : Edit := ks.foldl Edit.key ⟨[], []⟩

theorem edit_append (ks : List Key) (k : Key) : edit (ks ++ [k]) = (edit ks).key k := by
  rw [edit, List.foldl_append]
  rfl

end Console

/-! ### The machine -/

open Console

/-- `cons`, with the processes that sleep on `&cons.r` and the ones that were killed. -/
structure Cons (P : Type) where
  lock : Option P
  buf : Nat → UInt8
  r : BitVec 32
  w : BitVec 32
  e : BitVec 32
  asleep : P → Bool
  killed : P → Bool
  input : List Key
  delivered : List UInt8
  got : P → List UInt8
  results : List (List UInt8 × Int)

/-- The steps of `console.c` under `cons.lock`. -/
inductive ConsOp (P : Type) where
  | acquire
  | release
  | key (c : Char32)
  | empty
  | killed
  | sleep
  | woken
  | take
  | back
  | start
  | deliver (c : UInt8)
  | eof
  | result (v : Int)
  | kill (q : P)
  | halt

/-- `key` is the `switch` of `consoleintr`. `take` is `cons.buf[cons.r++ % INPUT_BUF]` and `back` is `cons.r--`.
`start`, `deliver`, `eof` and `result` record what a call of `consoleread` does. `halt` is the end of the part
of an endless loop that is looked at. -/
def ConsSig (P : Type) : Sig where
  Op := ConsOp P
  Ret
    | .empty | .killed => Bool
    | .take => UInt8
    | .halt => Empty
    | _ => Unit

namespace Cons

variable {P : Type} [DecidableEq P]

def init : Cons P where
  lock := none
  buf _ := 0
  r := 0
  w := 0
  e := 0
  asleep _ := false
  killed _ := false
  input := []
  delivered := []
  got _ := []
  results := []

def charAt (s : Cons P) (i : BitVec 32) : UInt8 := s.buf (cell INPUT_BUF i)

def setE (s : Cons P) (e : BitVec 32) : Cons P := { s with e := e }

def accept (s : Cons P) (k : Key) : Cons P := { s with input := s.input ++ [k] }

/-- The loop of control-U, which runs at most `cons.e - cons.w` times. -/
def killLine : Nat → Cons P → Cons P
  | 0, s => s
  | n + 1, s => if s.e ≠ s.w ∧ s.charAt (s.e - 1) ≠ newline then killLine n (s.setE (s.e - 1)) else s

/-- A character is stored, and the line committed. -/
def store (s : Cons P) (c : Char32) : Cons P :=
  let s := { s with buf := update s.buf (cell INPUT_BUF s.e) c.byte, e := s.e + 1 }
  if c = Char32.newline ∨ c = Char32.ctrlD ∨ s.e = s.r + BitVec.ofNat 32 INPUT_BUF then
    { s with w := s.e, asleep := fun _ => false }
  else s

/-- The `switch` of `consoleintr`. -/
def key (c : Char32) (s : Cons P) : Cons P :=
  if c = Char32.ctrlP then s
  else if c = Char32.ctrlU then (killLine (s.e - s.w).toNat s).accept ⟨c, false⟩
  else if c = Char32.ctrlH ∨ c = Char32.delete then
    (if s.e ≠ s.w then s.setE (s.e - 1) else s).accept ⟨c, false⟩
  else if c ≠ 0 ∧ s.e - s.r < BitVec.ofNat 32 INPUT_BUF then
    (s.store c.translate).accept ⟨c, s.e + 1 = s.r + BitVec.ofNat 32 INPUT_BUF⟩
  else s

def exec (p : P) : (o : ConsOp P) → Cons P → Outcome (Cons P) ((ConsSig P).Ret o)
  | .acquire, s => match s.lock with
    | some _ => .block
    | none => .ok () { s with lock := some p }
  | .release, s => .ok () { s with lock := none }
  | .key c, s => .ok () (s.key c)
  | .empty, s => .ok (s.r == s.w) s
  | .killed, s => .ok (s.killed p) s
  | .sleep, s => .ok () { s with lock := none, asleep := update s.asleep p true }
  | .woken, s => match s.asleep p, s.lock with
    | false, none => .ok () { s with lock := some p }
    | _, _ => .block
  | .take, s => .ok (s.charAt s.r) { s with r := s.r + 1 }
  | .back, s => .ok () { s with r := s.r - 1 }
  | .start, s => .ok () { s with got := update s.got p [] }
  | .deliver c, s => .ok () { s with
      delivered := s.delivered ++ [c]
      got := update s.got p (s.got p ++ [c]) }
  | .eof, s => .ok () { s with delivered := s.delivered ++ [ctrlD] }
  | .result v, s => .ok () { s with results := s.results ++ [(s.got p, v)] }
  | .kill q, s => .ok () { s with
      killed := update s.killed q true
      asleep := update s.asleep q false }
  | .halt, _ => .block

def machine : Machine (ConsSig P) P (Cons P) := ⟨exec⟩

/-! ### The code -/

def op (o : ConsOp P) : Prog (ConsSig P) ((ConsSig P).Ret o) := Prog.op (S := ConsSig P) o

def isEmpty : Prog (ConsSig P) Bool := op .empty
def isKilled : Prog (ConsSig P) Bool := op .killed
def take : Prog (ConsSig P) UInt8 := op .take

/-- `sleep`, as its two halves. -/
def sleep : Prog (ConsSig P) Unit := do
  op .sleep
  op .woken

def consoleintr (c : Char32) : Prog (ConsSig P) Unit := do
  op .acquire
  op (.key c)
  op .release

/-- The loops of `consoleread` with `n` bytes to go. `dst` tells whether `either_copyout` finds the byte's page.
One round sleeps or takes a byte. -/
def consolereadFrom (dst : Nat → Bool) (target : Nat) : Nat → Nat → Prog (ConsSig P) Int
  | 0, _ => .call .halt nofun
  | _ + 1, 0 => do
      op .release
      pure target
  | fuel + 1, n + 1 => do
      let empty ← isEmpty
      if empty then
        let killed ← isKilled
        if killed then
          op .release
          pure (-1)
        else
          sleep
          consolereadFrom dst target fuel (n + 1)
      else
        let c ← take
        if c = ctrlD then
          if n + 1 < target then op .back else op .eof
          op .release
          pure (target - (n + 1 : Nat))
        else if dst (target - (n + 1)) then
          op (.deliver c)
          if c = newline then
            op .release
            pure (target - n)
          else consolereadFrom dst target fuel n
        else
          op .release
          pure (target - (n + 1 : Nat))

def consoleread (dst : Nat → Bool) (n : Int) (fuel : Nat) : Prog (ConsSig P) Int := do
  op .acquire
  consolereadFrom dst n.toNat fuel n.toNat

/-- What happens at the console. -/
inductive Call (P : Type) where
  | intr (c : Char32)
  | read (dst : Nat → Bool) (n : Int) (fuel : Nat)
  | kill (q : P)

def Call.run : Call P → Prog (ConsSig P) Unit
  | intr c => consoleintr c
  | read dst n fuel => do
      op .start
      let v ← consoleread dst n fuel
      op (.result v)
  | kill q => op (.kill q)

/-- The copies of a call succeed. -/
def Call.Copies : Call P → Prop
  | read dst _ _ => ∀ i, dst i = true
  | _ => True

def runAll : List (Call P) → Prog (ConsSig P) Unit
  | [] => pure ()
  | c :: cs => do
      c.run
      runAll cs

end Cons

end Xv6
