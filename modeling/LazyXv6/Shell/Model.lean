import Mathlib

/-!
# The parser of the shell (`sh.c`)

A `char *` into the line is the rest of the line from there on, or its distance from the start. `es`
is the length of the line. The functions are given a number of turns, for the loops and calls below
them.
-/

namespace LazyXv6.Shell

/-- Why the parser does not return. -/
inductive Stop where
  | panic (s : String)
  | loop
deriving DecidableEq

/-- The bytes from `q` on, up to `eq`. -/
structure Word where
  q : ℕ
  eq : ℕ
deriving DecidableEq

/-- What `gettoken` returns, with its `q` and `eq` for a word; `append` is `+`. -/
inductive Token where
  | bar
  | lpar
  | rpar
  | semi
  | amp
  | lt
  | gt
  | append
  | word (w : Word)
deriving DecidableEq

/-- A redirection: `file` and `efile`, `mode` and `fd`. -/
structure Redir where
  file : Word
  mode : ℕ
  fd : ℕ
deriving DecidableEq

/-- `struct cmd`; the `argv` of a command is followed by a null pointer. -/
inductive Cmd where
  | exec (argv : List Word)
  | redir (cmd : Cmd) (r : Redir)
  | pipe (left right : Cmd)
  | list (left right : Cmd)
  | back (cmd : Cmd)
deriving DecidableEq

def maxArgs : ℕ := 10

def whitespace : List UInt8 := [32, 9, 13, 10, 11]

def symbols : List UInt8 := [60, 124, 62, 38, 59, 40, 41]

def isSpace (c : UInt8) : Bool := whitespace.contains c

def inWord (c : UInt8) : Bool := !whitespace.contains c && !symbols.contains c

/-- The token of a symbol other than `>`. -/
def symbol : UInt8 → Option Token
  | 124 => some .bar
  | 40 => some .lpar
  | 41 => some .rpar
  | 59 => some .semi
  | 38 => some .amp
  | 60 => some .lt
  | _ => none

section

variable (es : ℕ)

/-- The `switch` of `gettoken`, after white space; the token and what follows it. -/
def token : List UInt8 → Option Token × List UInt8
  | [] => (none, [])
  | 62 :: 62 :: s => (some .append, s)
  | 62 :: s => (some .gt, s)
  | c :: s =>
    match symbol c with
    | some tok => (some tok, s)
    | none =>
      -- `c` passes the test of the loop
      let r := s.dropWhile inWord
      (some (.word ⟨es - (c :: s).length, es - r.length⟩), r)

def gettoken (s : List UInt8) : Option Token × List UInt8 :=
  let r := token es (s.dropWhile isSpace)
  (r.1, r.2.dropWhile isSpace)

/-- `peek`, and the line from the byte on that it looks at. -/
def peek (s : List UInt8) (toks : List UInt8) : Bool × List UInt8 :=
  let s := s.dropWhile isSpace
  (s.head?.any toks.contains, s)

def redirOf (w : Word) : Option Token → List Redir
  | some .lt => [⟨w, 0, 0⟩]
  | some .gt => [⟨w, 0x601, 1⟩]
  | some .append => [⟨w, 0x201, 1⟩]
  | _ => []

/-- `parseredirs`, where `rs` are the redirections put around the command, the first one
innermost. -/
def parseredirs : ℕ → List Redir → List UInt8 → Except Stop (List Redir × List UInt8)
  | 0, _, _ => .error .loop
  | turns + 1, rs, s =>
    match peek s [60, 62] with
    | (false, s) => .ok (rs, s)
    | (true, s) =>
      let (tok, s) := gettoken es s
      match gettoken es s with
      | (some (.word w), s) => parseredirs turns (rs ++ redirOf w tok) s
      | _ => .error (.panic "missing file for redirection")

def wrap (rs : List Redir) (cmd : Cmd) : Cmd := rs.foldl .redir cmd

/-- The loop of `parseexec`; the command and the redirections around it. -/
def argsLoop : ℕ → List Word × List Redir → List UInt8 →
    Except Stop ((List Word × List Redir) × List UInt8)
  | 0, _, _ => .error .loop
  | turns + 1, (argv, rs), s =>
    match peek s [124, 41, 38, 59] with
    | (true, s) => .ok ((argv, rs), s)
    | (false, s) =>
      match gettoken es s with
      | (none, s) => .ok ((argv, rs), s)
      | (some (.word w), s) =>
        if argv.length + 1 ≥ maxArgs then .error (.panic "too many args")
        else do
          let (rs, s) ← parseredirs es turns rs s
          argsLoop turns (argv ++ [w], rs) s
      | _ => .error (.panic "syntax")

def backLoop : ℕ → Cmd → List UInt8 → Except Stop (Cmd × List UInt8)
  | 0, _, _ => .error .loop
  | turns + 1, cmd, s =>
    match peek s [38] with
    | (true, s) => backLoop turns (.back cmd) (gettoken es s).2
    | (false, s) => .ok (cmd, s)

mutual

def parseline : ℕ → List UInt8 → Except Stop (Cmd × List UInt8)
  | 0, _ => .error .loop
  | turns + 1, s => do
    let (cmd, s) ← parsepipe turns s
    let (cmd, s) ← backLoop es turns cmd s
    match peek s [59] with
    | (true, s) =>
      let (right, s) ← parseline turns (gettoken es s).2
      .ok (.list cmd right, s)
    | (false, s) => .ok (cmd, s)

def parsepipe : ℕ → List UInt8 → Except Stop (Cmd × List UInt8)
  | 0, _ => .error .loop
  | turns + 1, s => do
    let (cmd, s) ← parseexec turns s
    match peek s [124] with
    | (true, s) =>
      let (right, s) ← parsepipe turns (gettoken es s).2
      .ok (.pipe cmd right, s)
    | (false, s) => .ok (cmd, s)

def parseblock : ℕ → List UInt8 → Except Stop (Cmd × List UInt8)
  | 0, _ => .error .loop
  | turns + 1, s =>
    match peek s [40] with
    | (false, _) => .error (.panic "parseblock")
    | (true, s) => do
      let (cmd, s) ← parseline turns (gettoken es s).2
      match peek s [41] with
      | (false, _) => .error (.panic "syntax - missing )")
      | (true, s) =>
        let (rs, s) ← parseredirs es turns [] (gettoken es s).2
        .ok (wrap rs cmd, s)

def parseexec : ℕ → List UInt8 → Except Stop (Cmd × List UInt8)
  | 0, _ => .error .loop
  | turns + 1, s =>
    match peek s [40] with
    | (true, s) => parseblock turns s
    | (false, s) => do
      let (rs, s) ← parseredirs es turns [] s
      let ((argv, rs), s) ← argsLoop es turns ([], rs) s
      .ok (wrap rs (.exec argv), s)

end

end

/-- What `nulterminate` leaves in the buffer. -/
def nulterminate : Cmd → List UInt8 → List UInt8
  | .exec argv, buf => argv.foldl (fun buf w => buf.set w.eq 0) buf
  | .redir cmd r, buf => (nulterminate cmd buf).set r.file.eq 0
  | .pipe left right, buf => nulterminate right (nulterminate left buf)
  | .list left right, buf => nulterminate right (nulterminate left buf)
  | .back cmd, buf => nulterminate cmd buf

/-- `parsecmd` on a line, which is followed by a NUL; its result and the buffer. -/
def parsecmd (line : List UInt8) : Except Stop (Cmd × List UInt8) := do
  let es := line.length
  let (cmd, s) ← parseline es (4 * es + 4) line
  match peek s [] with
  | (_, []) => .ok (cmd, nulterminate cmd (line ++ [0]))
  | _ => .error (.panic "syntax")

end LazyXv6.Shell
