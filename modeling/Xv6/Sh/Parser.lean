import Xv6.Sh.Lexer

/-!
# The parser of the shell

The functions of `sh.c` from `parsecmd` to `nulterminate`; `malloc` does not fail.  Each loop
and each recursion is given a number of rounds, and `Stop.fuel` says that it had too few.

## Main definitions

* `Cmd` — `struct cmd` and the structures it stands for.
* `parseline`, `parsepipe`, `parseexec`, `parseblock`, `parseredirs` — the parser.
* `nulterminate` — the ends of words are overwritten.
* `parsecmd` — a line is parsed.
-/

namespace Xv6.Sh

def MAXARGS : ℕ := 10

def O_RDONLY : ℕ := 0
def O_WRONLY : ℕ := 1
def O_CREATE : ℕ := 512

/-- The commands, over a type of words. -/
inductive Cmd (W : Type)
  | exec (argv : List W)
  | redir (cmd : Cmd W) (file : W) (mode fd : ℕ)
  | pipe (left right : Cmd W)
  | list (left right : Cmd W)
  | back (cmd : Cmd W)
  deriving DecidableEq

namespace Cmd

variable {W V : Type}

/-- The words are read by `f`. -/
def map (f : W → V) : Cmd W → Cmd V
  | .exec argv => .exec (argv.map f)
  | .redir cmd file mode fd => .redir (cmd.map f) (f file) mode fd
  | .pipe left right => .pipe (left.map f) (right.map f)
  | .list left right => .list (left.map f) (right.map f)
  | .back cmd => .back (cmd.map f)

/-- The words of a command. -/
def words : Cmd W → List W
  | .exec argv => argv
  | .redir cmd file _ _ => file :: cmd.words
  | .pipe left right | .list left right => left.words ++ right.words
  | .back cmd => cmd.words

/-- `cmd->argv[argc] = w`, where `cmd` is the command inside the redirections. -/
def addArg (w : W) : Cmd W → Cmd W
  | .exec argv => .exec (argv ++ [w])
  | .redir cmd file mode fd => .redir (cmd.addArg w) file mode fd
  | cmd => cmd

/-- The `switch` of `parseredirs`. -/
def redirect (cmd : Cmd W) (file : W) : Token → Cmd W
  | .lt => .redir cmd file O_RDONLY 0
  | .gt => .redir cmd file (O_WRONLY ||| O_CREATE) 1
  | .append => .redir cmd file (O_WRONLY ||| O_CREATE) 1
  | _ => cmd

end Cmd

/-- The panics of the parser. -/
inductive Stop
  | missingFile
  | parseblock
  | missingParen
  | syntaxError
  | tooManyArgs
  /-- `leftovers`, and what is left. -/
  | leftovers (s : List Char)
  | fuel
  deriving DecidableEq

/-- What a function of the parser returns: a command, and `*ps`. -/
abbrev Parse := Except Stop (Cmd Ptr × List Char)

def parseredirs : ℕ → Cmd Ptr → List Char → Parse
  | 0, _, _ => .error .fuel
  | n + 1, cmd, s =>
    let (found, s) := peek s ['<', '>']
    if found then
      let (tok, _, s) := gettoken s
      let (next, p, s) := gettoken s
      if next = .word then parseredirs n (cmd.redirect p tok) s else .error .missingFile
    else .ok (cmd, s)

/-- The loop of `parseexec`. -/
def parseargs : ℕ → Cmd Ptr → ℕ → List Char → Parse
  | 0, _, _, _ => .error .fuel
  | n + 1, ret, argc, s =>
    let (found, s) := peek s ['|', ')', '&', ';']
    if found then .ok (ret, s)
    else
      let (tok, p, s) := gettoken s
      if tok = .eol then .ok (ret, s)
      else if tok ≠ .word then .error .syntaxError
      else if MAXARGS ≤ argc + 1 then .error .tooManyArgs
      else do
        let (ret, s) ← parseredirs n (ret.addArg p) s
        parseargs n ret (argc + 1) s

/-- The loop of `parseline`. -/
def parsebacks : ℕ → Cmd Ptr → List Char → Parse
  | 0, _, _ => .error .fuel
  | n + 1, cmd, s =>
    let (found, s) := peek s ['&']
    if found then
      let (_, _, s) := gettoken s
      parsebacks n (.back cmd) s
    else .ok (cmd, s)

mutual

def parseline : ℕ → List Char → Parse
  | 0, _ => .error .fuel
  | n + 1, s => do
      let (cmd, s) ← parsepipe n s
      let (cmd, s) ← parsebacks n cmd s
      let (found, s) := peek s [';']
      if found then
        let (_, _, s) := gettoken s
        let (right, s) ← parseline n s
        .ok (.list cmd right, s)
      else .ok (cmd, s)

def parsepipe : ℕ → List Char → Parse
  | 0, _ => .error .fuel
  | n + 1, s => do
      let (cmd, s) ← parseexec n s
      let (found, s) := peek s ['|']
      if found then
        let (_, _, s) := gettoken s
        let (right, s) ← parsepipe n s
        .ok (.pipe cmd right, s)
      else .ok (cmd, s)

def parseexec : ℕ → List Char → Parse
  | 0, _ => .error .fuel
  | n + 1, s =>
    let (found, s) := peek s ['(']
    if found then parseblock n s
    else do
      let (ret, s) ← parseredirs n (.exec []) s
      parseargs n ret 0 s

def parseblock : ℕ → List Char → Parse
  | 0, _ => .error .fuel
  | n + 1, s =>
    let (found, s) := peek s ['(']
    if !found then .error .parseblock
    else do
      let (_, _, s) := gettoken s
      let (cmd, s) ← parseline n s
      let (found, s) := peek s [')']
      if !found then .error .missingParen
      else
        let (_, _, s) := gettoken s
        parseredirs n cmd s

end

/-! ## The whole line -/

def NUL : Char := Char.ofNat 0

/-- `*eq = 0`; the pointer is as far from the NUL at the end of the buffer as the rest of the
line is long. -/
def erase (buf eq : List Char) : List Char := buf.set (buf.length - 1 - eq.length) NUL

def nulterminate : Cmd Ptr → List Char → List Char
  | .exec argv, buf => argv.foldl (fun buf p => erase buf p.eq) buf
  | .redir cmd file _ _, buf => erase (nulterminate cmd buf) file.eq
  | .pipe left right, buf | .list left right, buf => nulterminate right (nulterminate left buf)
  | .back cmd, buf => nulterminate cmd buf

/-- The string that a pointer into the buffer stands for. -/
def cstring (buf q : List Char) : List Char :=
  (buf.drop (buf.length - 1 - q.length)).takeWhile (· ≠ NUL)

/-- The line in the memory at `s`, up to its first NUL. -/
def line (mem : List Char) : List Char := mem.takeWhile (· ≠ NUL)

/-- `parsecmd`: the command, and the buffer it points into. -/
def parsecmd (mem : List Char) : Except Stop (Cmd Ptr × List Char) := do
  let s := line mem
  let (cmd, rest) ← parseline (4 * s.length + 4) s
  match (peek rest []).2 with
  | [] => .ok (cmd, nulterminate cmd (s ++ [NUL]))
  | rest => .error (.leftovers rest)

/-- What the words of a command are when `parsecmd` has returned. -/
def readout (r : Cmd Ptr × List Char) : Cmd (List Char) := r.1.map fun p => cstring r.2 p.q

end Xv6.Sh
