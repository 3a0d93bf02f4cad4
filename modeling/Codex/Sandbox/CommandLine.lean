import Codex.Std.Text

/-!
# Codex — Windows command lines

`windows-sandbox-rs/src/winutil.rs`. A Windows process gets one command line, and takes it
apart itself. `quote_windows_arg` writes an argument so that it comes out whole (`quote_arg` in
`setup.rs` is the same function).

* **What it is for.** `commandLineToArgv`: the rules of `CommandLineToArgvW`. Backslashes count
  only in front of a quote, and the program name knows none.
* **Result.** `commandLineToArgv_argvToCommandLine`: the arguments come back as they were.
-/

namespace Codex.Windows

open List Text

/-! ## Quoting -/

variable (arg : Text)

def needsQuotes : Bool :=
  arg.isEmpty || arg.any fun c => c = ' ' || c = '\t' || c = '\n' || c = '\r' || c = '"'

/-- The loop over the characters, with the closing quote. Backslashes are held back until it
is known what follows them. -/
def quoteLoop : Nat → Text → Text
  | backslashes, [] => replicate (backslashes * 2) '\\' ++ ['"']
  | backslashes, ch :: rest =>
    if ch = '\\' then quoteLoop (backslashes + 1) rest
    else if ch = '"' then replicate (backslashes * 2 + 1) '\\' ++ '"' :: quoteLoop 0 rest
    else replicate backslashes '\\' ++ ch :: quoteLoop 0 rest

def quoteWindowsArg : Text :=
  if needsQuotes arg then '"' :: quoteLoop 0 arg else arg

def argvToCommandLine (argv : List Text) : Text := join [' '] (argv.map quoteWindowsArg)

/-! ## Splitting -/

def isBlank (c : Char) : Bool := c = ' ' || c = '\t'

/-- The program name and what follows it. -/
def programName : Text → Text × Text
  | '"' :: rest => (rest.takeWhile (· ≠ '"'), (rest.dropWhile (· ≠ '"')).tail)
  | line => (line.takeWhile (!isBlank ·), line.dropWhile (!isBlank ·))

/-- The arguments of a command line, when `arg` has been read of the one that is open (if there
is one), and `backslashes` after it. -/
def splitLoop : Option Text → Bool → Nat → Text → List Text
  | none, _, _, [] => []
  | some arg, _, backslashes, [] => [arg ++ replicate backslashes '\\']
  | arg, inQuotes, backslashes, ch :: rest =>
    if ch = '\\' then splitLoop (some (arg.getD [])) inQuotes (backslashes + 1) rest
    else if ch = '"' then
      let arg := arg.getD [] ++ replicate (backslashes / 2) '\\'
      if backslashes % 2 = 0 then splitLoop (some arg) (!inQuotes) 0 rest
      else splitLoop (some (arg ++ ['"'])) inQuotes 0 rest
    else if isBlank ch && !inQuotes then
      (arg.map (· ++ replicate backslashes '\\')).toList ++ splitLoop none false 0 rest
    else splitLoop (some (arg.getD [] ++ replicate backslashes '\\' ++ [ch])) inQuotes 0 rest

def commandLineToArgv (line : Text) : List Text :=
  (programName line).1 :: splitLoop none false 0 (programName line).2

/-! ## One argument -/

theorem splitLoop_replicate (inQuotes : Bool) (m n : Nat) (rest : Text) :
    splitLoop (some arg) inQuotes m (replicate n '\\' ++ rest) =
      splitLoop (some arg) inQuotes (m + n) rest := by
  induction n generalizing m with
  | zero => rfl
  | succ n ih =>
    rw [replicate_succ, cons_append, splitLoop, if_pos rfl, Option.getD_some, ih]
    congr 1
    omega

/-- What the loop writes is read back up to its closing quote. -/
theorem splitLoop_quoteLoop (arg cs rest : Text) (n : Nat) :
    splitLoop (some arg) true 0 (quoteLoop n cs ++ rest) =
      splitLoop (some (arg ++ replicate n '\\' ++ cs)) false 0 rest := by
  induction cs generalizing arg n with
  | nil =>
    -- twice as many backslashes, so that the quote closes
    rw [quoteLoop, append_assoc, splitLoop_replicate, singleton_append, splitLoop]
    simp
  | cons ch cs ih =>
    rw [quoteLoop]
    split
    · next hSlash =>
      rw [ih, hSlash, replicate_succ']
      simp
    split
    · next hQuote =>
      -- one more than twice as many, so that the quote is part of the argument
      rw [append_assoc, splitLoop_replicate, cons_append, splitLoop, hQuote]
      have hHalf : (0 + (n * 2 + 1)) / 2 = n := by omega
      have hOdd : (0 + (n * 2 + 1)) % 2 ≠ 0 := by omega
      simp only [hHalf]
      rw [ih]
      simp
    · next hSlash hQuote =>
      rw [append_assoc, splitLoop_replicate, cons_append, splitLoop, if_neg hSlash, if_neg hQuote, ih]
      simp

/-- An argument is over at the end of the line, and at a space. -/
def Ends (rest : Text) : Prop := rest = [] ∨ ∃ more, rest = ' ' :: more

variable {rest : Text} {cs : Text}

theorem splitLoop_ends (h : Ends rest) (arg : Text) (n : Nat) : splitLoop (some arg) false n rest =
      (arg ++ replicate n '\\') :: splitLoop none false 0 rest := by
  rcases h with rfl | ⟨more, rfl⟩
  · simp [splitLoop]
  · simp [splitLoop, isBlank]

theorem splitLoop_plain (h : Ends rest)
    (hPlain : ∀ c ∈ cs, isBlank c = false ∧ c ≠ '"') (arg : Text) (n : Nat) :
    splitLoop (some arg) false n (cs ++ rest) =
      (arg ++ replicate n '\\' ++ cs) :: splitLoop none false 0 rest := by
  induction cs generalizing arg n with
  | nil => rw [nil_append, splitLoop_ends h, append_nil]
  | cons ch cs ih =>
    obtain ⟨⟨hBlank, hQuote⟩, hRest⟩ := forall_mem_cons.mp hPlain
    rw [cons_append, splitLoop]
    by_cases hSlash : ch = '\\'
    · rw [ih hRest, hSlash, replicate_succ']
      simp
    · rw [if_neg hSlash, if_neg hQuote, hBlank, ih hRest]
      simp

theorem plain_of_not_needsQuotes {arg : Text} (h : needsQuotes arg = false) :
    arg ≠ [] ∧ ∀ c ∈ arg, isBlank c = false ∧ c ≠ '"' := by
  simp only [needsQuotes, Bool.or_eq_false_iff, isEmpty_eq_false_iff, any_eq_false] at h
  refine ⟨h.1, fun c hc => ?_⟩
  have hPlain := h.2 c hc
  simp only [Bool.or_eq_true, decide_eq_true_eq, not_or] at hPlain
  exact ⟨by simp [isBlank, hPlain], hPlain.2⟩

/-- **One argument** is read back, whatever follows it after a space. -/
theorem splitLoop_quoteWindowsArg (h : Ends rest) :
    splitLoop none false 0 (quoteWindowsArg arg ++ rest) =
      arg :: splitLoop none false 0 rest := by
  unfold quoteWindowsArg
  split
  · have hOpen : splitLoop none false 0 ('"' :: quoteLoop 0 arg ++ rest) =
        splitLoop (some []) true 0 (quoteLoop 0 arg ++ rest) := by
      simp [splitLoop]
    rw [hOpen, splitLoop_quoteLoop, splitLoop_ends h]
    simp
  · next hPlain =>
    obtain ⟨hNe, hChars⟩ := plain_of_not_needsQuotes (eq_false_of_ne_true hPlain)
    obtain ⟨ch, cs, rfl⟩ := exists_cons_of_ne_nil hNe
    -- the first character opens the argument
    have hOpen : splitLoop none false 0 (ch :: cs ++ rest) =
        splitLoop (some []) false 0 (ch :: cs ++ rest) := by
      simp [splitLoop, (hChars ch mem_cons_self).1]
    rw [hOpen, splitLoop_plain h hChars]
    rfl

/-! ## The command line -/

/-- A program name without quotes that does not end in a backslash stays as it is. -/
theorem quoteLoop_program (hQuote : '"' ∉ cs) (n : Nat)
    (hLast : (replicate n '\\' ++ cs).getLast? ≠ some '\\') :
    quoteLoop n cs = replicate n '\\' ++ cs ++ ['"'] := by
  induction cs generalizing n with
  | nil =>
    cases n with
    | zero => rfl
    | succ n => simp [replicate_succ'] at hLast
  | cons ch cs ih =>
    obtain ⟨hNe, hRest⟩ := not_or.mp (mem_cons.not.mp hQuote)
    rw [quoteLoop]
    split
    · next hSlash =>
      subst hSlash
      rw [ih hRest, replicate_succ']
      · simp
      · simpa [replicate_succ'] using hLast
    · next hSlash =>
      rw [if_neg (Ne.symm hNe), ih hRest]
      · simp
      · cases cs <;> simp_all

theorem programName_quoteWindowsArg {program : Text} (hNe : program ≠ []) (hQuote : '"' ∉ program)
    (hLast : program.getLast? ≠ some '\\') (h : Ends rest) :
    programName (quoteWindowsArg program ++ rest) = (program, rest) := by
  unfold quoteWindowsArg
  split
  · have hAll : ∀ c ∈ program, decide (c ≠ '"') = true := fun c hc => by
      simpa using ne_of_mem_of_not_mem hc hQuote
    rw [quoteLoop_program hQuote 0 hLast, cons_append, append_assoc, programName,
      replicate_zero, nil_append, takeWhile_append_of_pos hAll, dropWhile_append_of_pos hAll]
    simp
  · next hPlain =>
    have hChars := (plain_of_not_needsQuotes (eq_false_of_ne_true hPlain)).2
    have hAll : ∀ c ∈ program, (!isBlank c) = true := fun c hc => by simp [(hChars c hc).1]
    have hStop : rest.takeWhile (!isBlank ·) = [] ∧ rest.dropWhile (!isBlank ·) = rest := by
      rcases h with rfl | ⟨more, rfl⟩ <;> simp [isBlank]
    obtain ⟨ch, cs, rfl⟩ := exists_cons_of_ne_nil hNe
    rw [cons_append, programName]
    · rw [← cons_append, takeWhile_append_of_pos hAll, dropWhile_append_of_pos hAll, hStop.1,
        hStop.2, append_nil]
    · rintro _ hFirst
      cases hFirst
      exact hQuote mem_cons_self

variable (args : List Text)

/-- The command line after the program name. -/
def argsLine : Text := args.flatMap fun arg => ' ' :: quoteWindowsArg arg

theorem ends_argsLine : Ends (argsLine args) := by
  cases args with
  | nil => exact .inl rfl
  | cons arg args => exact .inr ⟨_, rfl⟩

theorem argvToCommandLine_cons :
    argvToCommandLine (arg :: args) = quoteWindowsArg arg ++ argsLine args := by
  induction args generalizing arg with
  | nil => simp [argvToCommandLine, argsLine, join]
  | cons next args ih =>
    rw [argsLine, flatMap_cons, cons_append, ← argsLine, ← ih]
    simp [argvToCommandLine, join]

theorem splitLoop_argsLine : splitLoop none false 0 (argsLine args) = args := by
  induction args with
  | nil => rfl
  | cons arg args ih =>
    have hSpace : ∀ line, splitLoop none false 0 (' ' :: line) = splitLoop none false 0 line :=
      fun line => by simp [splitLoop, isBlank]
    rw [argsLine, flatMap_cons, cons_append, ← argsLine, hSpace,
      splitLoop_quoteWindowsArg arg (ends_argsLine args), ih]

/-- **Windows command lines.** Every argument list comes back from the command line that is
built from it, if the program name is not empty, has no quote and ends in no backslash. -/
theorem commandLineToArgv_argvToCommandLine (program : Text) (args : List Text)
    (hNe : program ≠ []) (hQuote : '"' ∉ program) (hLast : program.getLast? ≠ some '\\') :
    commandLineToArgv (argvToCommandLine (program :: args)) = program :: args := by
  rw [argvToCommandLine_cons, commandLineToArgv,
    programName_quoteWindowsArg hNe hQuote hLast (ends_argsLine args), splitLoop_argsLine]

theorem commandLineToArgv_quoted_path :
    commandLineToArgv (argvToCommandLine
      ["C:\\My Tools\\rg.exe".toList, "a\\\"b\\".toList, [], "c d\\".toList]) =
      ["C:\\My Tools\\rg.exe".toList, "a\\\"b\\".toList, [], "c d\\".toList] :=
  commandLineToArgv_argvToCommandLine _ _ (by decide) (by decide) (by decide)

end Codex.Windows
