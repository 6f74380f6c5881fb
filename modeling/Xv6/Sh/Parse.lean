import Mathlib.Logic.Function.Basic

/-! The parser of `sh.c`. A command is a buffer that has its NUL at `es`, and a pointer into it is an index. What
`gettoken` and `peek` do to `*ps` is part of their result. The recursive functions and the loops get fuel, of
which `parsecmd` has enough. -/

namespace Xv6

namespace Sh

def MAXARGS : Nat := 10

def O_RDONLY : Nat := 0x000
def O_WRONLY : Nat := 0x001
def O_CREATE : Nat := 0x200
def O_TRUNC : Nat := 0x400

abbrev Buf := Nat → UInt8

/-- A part of the buffer: `argv[i]` and `eargv[i]`, or `file` and `efile`. -/
structure Word where
  q : Nat
  eq : Nat
  deriving DecidableEq

/-- What a `redircmd` has besides its command. -/
structure Redir where
  file : Word
  mode : Nat
  fd : Nat
  deriving DecidableEq

inductive Cmd where
  | exec (argv : List Word)
  | redir (cmd : Cmd) (r : Redir)
  | pipe (left right : Cmd)
  | list (left right : Cmd)
  | back (cmd : Cmd)
  deriving DecidableEq

/-- The calls of `panic`, and the end of the fuel. -/
inductive Error where
  | panic (msg : String)
  | fuel
  deriving DecidableEq

/-! ### Tokens -/

def whitespace : List UInt8 := [32, 9, 13, 10, 11]

def symbols : List UInt8 := [60, 124, 62, 38, 59, 40, 41]

/-- What `gettoken` returns: 0, one of the symbols, `'+'` for `>>`, or `'a'` for a word. -/
inductive Kind where
  | nul
  | bar
  | lpar
  | rpar
  | semi
  | amp
  | lt
  | gt
  | plus
  | word
  deriving DecidableEq

structure Token where
  kind : Kind
  q : Nat
  eq : Nat
  deriving DecidableEq

def Token.toWord (t : Token) : Word := ⟨t.q, t.eq⟩

section Buffer

variable (buf : Buf) (es : Nat)

/-- `while(s < es && test(*s)) s++`, with `n` characters up to `es`. -/
def skipFrom (test : UInt8 → Bool) : Nat → Nat → Nat
  | 0, s => s
  | n + 1, s => if test (buf s) then skipFrom test n (s + 1) else s

def isBlank (c : UInt8) : Bool := whitespace.contains c

def isWordChar (c : UInt8) : Bool := !whitespace.contains c && !symbols.contains c

def skipBlanks (s : Nat) : Nat := skipFrom buf isBlank (es - s) s

def wordEnd (s : Nat) : Nat := skipFrom buf isWordChar (es - s) s

/-- The `switch` of `gettoken`: the token at `s` and its end. -/
def scan (s : Nat) : Kind × Nat :=
  if buf s = 0 then (.nul, s)
  else if buf s = 124 then (.bar, s + 1)
  else if buf s = 40 then (.lpar, s + 1)
  else if buf s = 41 then (.rpar, s + 1)
  else if buf s = 59 then (.semi, s + 1)
  else if buf s = 38 then (.amp, s + 1)
  else if buf s = 60 then (.lt, s + 1)
  else if buf s = 62 then if buf (s + 1) = 62 then (.plus, s + 2) else (.gt, s + 1)
  else (.word, wordEnd buf es s)

def gettoken (s : Nat) : Token × Nat :=
  let q := skipBlanks buf es s
  (⟨(scan buf es q).1, q, (scan buf es q).2⟩, skipBlanks buf es (scan buf es q).2)

def peek (toks : List UInt8) (s : Nat) : Bool × Nat :=
  let s := skipBlanks buf es s
  (buf s ≠ 0 && toks.contains (buf s), s)

/-! ### The recursive descent -/

def redirOf (tok : Kind) (file : Token) : Option Redir :=
  match tok with
  | .lt => some ⟨file.toWord, O_RDONLY, 0⟩
  | .gt => some ⟨file.toWord, O_WRONLY ||| O_CREATE ||| O_TRUNC, 1⟩
  | .plus => some ⟨file.toWord, O_WRONLY ||| O_CREATE, 1⟩
  | _ => none

/-- `parseredirs`, which adds to the redirections `rs` around a command. -/
def parseredirs : Nat → List Redir → Nat → Except Error (List Redir × Nat)
  | 0, _, _ => .error .fuel
  | fuel + 1, rs, s =>
      let (more, s) := peek buf es [60, 62] s
      if more then
        let (tok, s) := gettoken buf es s
        let (file, s) := gettoken buf es s
        if file.kind ≠ .word then .error (.panic "missing file for redirection")
        else parseredirs fuel (rs ++ (redirOf tok.kind file).toList) s
      else .ok (rs, s)

/-- The redirections `rs` around a command, the first one inside. -/
def wrap (rs : List Redir) (cmd : Cmd) : Cmd := rs.foldl Cmd.redir cmd

/-- The loop of `parseexec`, with the words and the redirections so far. The `execcmd` is filled in while
redirections are already wrapped around it. -/
def parseargs : Nat → List Word → List Redir → Nat → Except Error (Cmd × Nat)
  | 0, _, _, _ => .error .fuel
  | fuel + 1, argv, rs, s => do
      let (stop, s) := peek buf es [124, 41, 38, 59] s
      if stop then pure (wrap rs (.exec argv), s)
      else
        let (tok, s) := gettoken buf es s
        if tok.kind = .nul then pure (wrap rs (.exec argv), s)
        else if tok.kind ≠ .word then throw (.panic "syntax")
        else if argv.length + 1 ≥ MAXARGS then throw (.panic "too many args")
        else
          let (rs, s) ← parseredirs buf es fuel rs s
          parseargs fuel (argv ++ [tok.toWord]) rs s

def parsebacks : Nat → Cmd → Nat → Except Error (Cmd × Nat)
  | 0, _, _ => .error .fuel
  | fuel + 1, cmd, s =>
      let (more, s) := peek buf es [38] s
      if more then
        let (_, s) := gettoken buf es s
        parsebacks fuel (.back cmd) s
      else .ok (cmd, s)

mutual

def parseline : Nat → Nat → Except Error (Cmd × Nat)
  | 0, _ => .error .fuel
  | fuel + 1, s => do
      let (cmd, s) ← parsepipe fuel s
      let (cmd, s) ← parsebacks buf es fuel cmd s
      let (more, s) := peek buf es [59] s
      if more then
        let (_, s) := gettoken buf es s
        let (right, s) ← parseline fuel s
        pure (.list cmd right, s)
      else pure (cmd, s)

def parsepipe : Nat → Nat → Except Error (Cmd × Nat)
  | 0, _ => .error .fuel
  | fuel + 1, s => do
      let (cmd, s) ← parseexec fuel s
      let (more, s) := peek buf es [124] s
      if more then
        let (_, s) := gettoken buf es s
        let (right, s) ← parsepipe fuel s
        pure (.pipe cmd right, s)
      else pure (cmd, s)

def parseblock : Nat → Nat → Except Error (Cmd × Nat)
  | 0, _ => .error .fuel
  | fuel + 1, s => do
      let (isopen, s) := peek buf es [40] s
      if !isopen then throw (.panic "parseblock")
      else
        let (_, s) := gettoken buf es s
        let (cmd, s) ← parseline fuel s
        let (isclosed, s) := peek buf es [41] s
        if !isclosed then throw (.panic "syntax - missing )")
        else
          let (_, s) := gettoken buf es s
          let (rs, s) ← parseredirs buf es fuel [] s
          pure (wrap rs cmd, s)

def parseexec : Nat → Nat → Except Error (Cmd × Nat)
  | 0, _ => .error .fuel
  | fuel + 1, s => do
      let (isblock, s) := peek buf es [40] s
      if isblock then parseblock fuel s
      else
        let (rs, s) ← parseredirs buf es fuel [] s
        parseargs buf es fuel [] rs s

end

/-- `nulterminate`, as what it makes of the buffer. -/
def nulterminate : Cmd → Buf → Buf
  | .exec argv, buf => argv.foldl (fun buf w => Function.update buf w.eq 0) buf
  | .redir cmd r, buf => Function.update (nulterminate cmd buf) r.file.eq 0
  | .pipe left right, buf => nulterminate right (nulterminate left buf)
  | .list left right, buf => nulterminate right (nulterminate left buf)
  | .back cmd, buf => nulterminate cmd buf

/-- `parsecmd` of the string at 0: the tree, and the buffer that it points into. -/
def parsecmd : Except Error (Cmd × Buf) := do
  let (cmd, s) ← parseline buf es (4 * es + 4) 0
  let (_, s) := peek buf es [] s
  if s ≠ es then throw (.panic "syntax")
  else pure (cmd, nulterminate cmd buf)

end Buffer

end Sh

end Xv6
