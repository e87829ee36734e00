import Cobrust.Text.Words
import Mathlib.Data.List.Forall2

/-!
# Command lines for the debugger

What the driver of `cobrust-dap/src/lldb_driver.rs` writes to the debugger, when every command is answered. The debugger
takes one command from a line and splits it into words as the comment of `lldb_quote` says.

* `faithful_iff`: the texts that an operation passes on as it got them.
-/

namespace Cobrust.Dap.Wire

open Text (splitWords readLines writeLines quote isPlain)

/-! ## The driver -/

def lldbQuote (s : Text) : Text :=
  quote s

def defaultPrinters : Text :=
  "./tools/lldb-cobrust/printers.py".toList

def spawnAndAttach (binaryPath : Text) (printersPath : Option Text) : List Text :=
  let printers := printersPath.getD defaultPrinters
  ["command script import ".toList ++ printers, "target create ".toList ++ lldbQuote binaryPath]

def setBreakpoint (file : Text) (line : UInt32) : List Text :=
  ["breakpoint set --file ".toList ++ lldbQuote file ++ " --line ".toList ++ Text.displayInt line.toNat]

def setConditionalBreakpoint (file : Text) (line : UInt32) (condition : Text) : List Text :=
  ["breakpoint set --file ".toList ++ lldbQuote file ++ " --line ".toList ++ Text.displayInt line.toNat ++
    " --condition ".toList ++ lldbQuote condition]

/-- `log_msg.replace('"', "\\\"")` -/
def escapeQuotes (s : Text) : Text :=
  s.flatMap fun c => if c = '"' then ['\\', '"'] else [c]

def setLogBreakpoint (file : Text) (line : UInt32) (logMsg : Text) : List Text :=
  ["breakpoint set --file ".toList ++ lldbQuote file ++ " --line ".toList ++ Text.displayInt line.toNat ++
      " --auto-continue 1".toList,
    "breakpoint command add --script-type python -o 'print(\"".toList ++ escapeQuotes logMsg ++ "\")'".toList]

def accessArg : Option Text → Option Text
  | none => some "write".toList
  | some access =>
    if access = "write".toList then some "write".toList
    else if access = "read".toList then some "read".toList
    else if access = "readWrite".toList then some "read_write".toList
    else none

/-- An access of another name is refused without a command. -/
def setWatchpoint (watched : Text) (access : Option Text) : List Text :=
  match accessArg access with
  | some arg => ["watchpoint set variable -w ".toList ++ arg ++ " ".toList ++ lldbQuote watched]
  | none => []

def evaluate (expression : Text) (frameId : Option Int64) : List Text :=
  (match frameId with
    | some fid => ["frame select ".toList ++ Text.displayInt64 fid]
    | none => []) ++ ["expression -- ".toList ++ expression]

inductive Operation where
  | spawnAndAttach (binaryPath : Text) (printersPath : Option Text)
  | setBreakpoint (file : Text) (line : UInt32)
  | setConditionalBreakpoint (file : Text) (line : UInt32) (condition : Text)
  | setLogBreakpoint (file : Text) (line : UInt32) (logMsg : Text)
  | setWatchpoint (watched : Text) (access : Option Text)
  | evaluate (expression : Text) (frameId : Option Int64)

/-- The commands of an operation, which `send_command` writes on a line each. -/
def Operation.commands : Operation → List Text
  | spawnAndAttach binaryPath printersPath => Wire.spawnAndAttach binaryPath printersPath
  | setBreakpoint file line => Wire.setBreakpoint file line
  | setConditionalBreakpoint file line condition => Wire.setConditionalBreakpoint file line condition
  | setLogBreakpoint file line logMsg => Wire.setLogBreakpoint file line logMsg
  | setWatchpoint watched access => Wire.setWatchpoint watched access
  | evaluate expression frameId => Wire.evaluate expression frameId

/-! ## Python -/

/-- What the last characters of a string literal have begun. -/
inductive LiteralMode where
  | plain
  | escaped
  /-- Up to `left` more octal digits. -/
  | octal (left value : Nat)
  /-- `left` more hexadecimal digits. -/
  | hex (left value : Nat)
  | nameOpen
  | name (acc : Text)

structure Literal where
  text : Text
  mode : LiteralMode

def octalDigit (c : Char) : Option Nat :=
  if '0' ≤ c ∧ c ≤ '7' then some (c.toNat - '0'.toNat) else none

def hexDigit (c : Char) : Option Nat :=
  if '0' ≤ c ∧ c ≤ '9' then some (c.toNat - '0'.toNat)
  else if 'a' ≤ c ∧ c ≤ 'f' then some (c.toNat - 'a'.toNat + 10)
  else if 'A' ≤ c ∧ c ≤ 'F' then some (c.toNat - 'A'.toNat + 10)
  else none

/-- The escapes of one character. -/
def simpleEscape : Char → Option Char
  | '\\' => some '\\'
  | '\'' => some '\''
  | '"' => some '"'
  | 'a' => some '\x07'
  | 'b' => some '\x08'
  | 'f' => some '\x0c'
  | 'n' => some '\n'
  | 'r' => some '\r'
  | 't' => some '\t'
  | 'v' => some '\x0b'
  | _ => none

/-- Characters that end a literal in double quotes, or that no source has. -/
def breaks (c : Char) : Bool :=
  c = '"' || c = '\n' || c = '\r' || c = '\x00'

/-- A character outside of an escape. -/
def plainStep (text : Text) (c : Char) : Option Literal :=
  if breaks c then none
  else if c = '\\' then some ⟨text, .escaped⟩
  else some ⟨text ++ [c], .plain⟩

section Python

-- the characters with a name, for `\N{...}`
variable (named : Text → Option Char)

def escapedStep (text : Text) (c : Char) : Option Literal :=
  match simpleEscape c with
  | some d => some ⟨text ++ [d], .plain⟩
  | none =>
    match octalDigit c with
    | some n => some ⟨text, .octal 2 n⟩
    | none =>
      if c = '\n' ∨ c = '\r' then some ⟨text, .plain⟩
      else if c = '\x00' then none
      else if c = 'x' then some ⟨text, .hex 2 0⟩
      else if c = 'u' then some ⟨text, .hex 4 0⟩
      else if c = 'U' then some ⟨text, .hex 8 0⟩
      else if c = 'N' then some ⟨text, .nameOpen⟩
      else some ⟨text ++ ['\\', c], .plain⟩

def literalStep (l : Literal) (c : Char) : Option Literal :=
  match l.mode with
  | .plain => plainStep l.text c
  | .escaped => escapedStep l.text c
  | .octal left value =>
    match left, octalDigit c with
    | left + 1, some n => some ⟨l.text, .octal left (value * 8 + n)⟩
    | _, _ => plainStep (l.text ++ [Char.ofNat value]) c
  | .hex left value =>
    match hexDigit c with
    | some n =>
      if left ≤ 1 then
        if (value * 16 + n).isValidChar then some ⟨l.text ++ [Char.ofNat (value * 16 + n)], .plain⟩ else none
      else some ⟨l.text, .hex (left - 1) (value * 16 + n)⟩
    | none => none
  | .nameOpen => if c = '{' then some ⟨l.text, .name []⟩ else none
  | .name acc =>
    if c = '}' then (named acc).map fun d => ⟨l.text ++ [d], .plain⟩
    else if breaks c then none
    else some ⟨l.text, .name (acc ++ [c])⟩

def literalFrom (l : Literal) (s : Text) : Option Literal :=
  s.foldlM (literalStep named) l

def Literal.finish (l : Literal) : Option Text :=
  match l.mode with
  | .plain => some l.text
  | .octal _ value => some (l.text ++ [Char.ofNat value])
  | _ => none

/-- The value of a string literal in double quotes. -/
def literalValue (s : Text) : Option Text :=
  (literalFrom named ⟨[], .plain⟩ s).bind Literal.finish

def printOpen : Text :=
  "print(\"".toList

def printClose : Text :=
  "\")".toList

/-- The statement prints one string literal. -/
def Prints (stmt message : Text) : Prop :=
  ∃ s, stmt = printOpen ++ s ++ printClose ∧ literalValue named s = some message

/-- The words that each command should have. -/
def Operation.intended : Operation → List (List Text → Prop)
  | spawnAndAttach binaryPath printersPath =>
    [(· = ["command".toList, "script".toList, "import".toList, printersPath.getD defaultPrinters]),
      (· = ["target".toList, "create".toList, binaryPath])]
  | setBreakpoint file line =>
    [(· = ["breakpoint".toList, "set".toList, "--file".toList, file, "--line".toList, Text.displayInt line.toNat])]
  | setConditionalBreakpoint file line condition =>
    [(· = ["breakpoint".toList, "set".toList, "--file".toList, file, "--line".toList, Text.displayInt line.toNat,
      "--condition".toList, condition])]
  | setLogBreakpoint file line logMsg =>
    [(· = ["breakpoint".toList, "set".toList, "--file".toList, file, "--line".toList, Text.displayInt line.toNat,
        "--auto-continue".toList, "1".toList]),
      fun words => ∃ stmt, words = ["breakpoint".toList, "command".toList, "add".toList, "--script-type".toList,
        "python".toList, "-o".toList, stmt] ∧ Prints named stmt logMsg]
  | setWatchpoint watched access =>
    match accessArg access with
    | some arg => [(· = ["watchpoint".toList, "set".toList, "variable".toList, "-w".toList, arg, watched])]
    | none => []
  | evaluate expression frameId =>
    (match frameId with
      | some fid => [(· = ["frame".toList, "select".toList, Text.displayInt64 fid])]
      | none => []) ++ [(· = ["expression".toList, "--".toList, expression])]

/-- Every line that the debugger gets is a command of the operation, with the words that it should have. -/
def Operation.Faithful (op : Operation) : Prop :=
  List.Forall₂ (fun line want => ∃ words, splitWords line = some words ∧ want words)
    (readLines [] (writeLines op.commands)) (op.intended named)

end Python

/-- The text fits on a line. -/
def OneLine (s : Text) : Prop :=
  '\n' ∉ s

instance (s : Text) : Decidable (OneLine s) :=
  inferInstanceAs (Decidable (_ ∉ _))

/-- The text is a word as it is. -/
def OneWord (s : Text) : Prop :=
  s ≠ [] ∧ ∀ c ∈ s, isPlain c = true ∧ c ≠ '\n'

/-- Backslashes before the character stay. -/
def harmless (c : Char) : Bool :=
  !breaks c && (simpleEscape c).isNone && (octalDigit c).isNone && c ≠ 'x' && c ≠ 'u' && c ≠ 'U' && c ≠ 'N'

/-- The text has no quote for the command line, no line break, and no backslash that means something. -/
def verbatim : Text → Bool
  | [] => true
  | '\\' :: c :: rest => harmless c && verbatim rest
  | c :: rest => c ≠ '\\' && c ≠ '\'' && c ≠ '\n' && c ≠ '\r' && c ≠ '\x00' && verbatim rest

/-- The operation has no text that breaks its commands. -/
def Operation.Safe : Operation → Prop
  | spawnAndAttach binaryPath printersPath => OneLine binaryPath ∧ OneWord (printersPath.getD defaultPrinters)
  | setBreakpoint file _ => OneLine file
  | setConditionalBreakpoint file _ condition => OneLine file ∧ OneLine condition
  | setLogBreakpoint file _ logMsg => OneLine file ∧ verbatim logMsg = true
  | setWatchpoint watched access => accessArg access = none ∨ OneLine watched
  | evaluate expression _ => OneWord expression

/-! ## Lengths of literals -/

/-- The length of the text with its double quotes escaped. -/
def weight (s : Text) : Nat :=
  s.length + s.count '"'

theorem weight_append (a b : Text) : weight (a ++ b) = weight a + weight b := by
  simp only [weight, List.length_append, List.count_append]
  omega

theorem weight_singleton {c : Char} (h : c ≠ '"') : weight [c] = 1 := by
  simp [weight, h]

theorem weight_singleton_le (c : Char) : weight [c] ≤ 2 := by
  by_cases h : c = '"'
  · subst h
    decide
  · rw [weight_singleton h]
    decide

theorem weight_singleton_pos (c : Char) : 1 ≤ weight [c] := by
  simp [weight]

theorem length_escapeQuotes (s : Text) : (escapeQuotes s).length = weight s := by
  induction s with
  | nil => rfl
  | cons c s ih =>
    have hcons : weight (c :: s) = weight [c] + weight s := weight_append [c] s
    rw [escapeQuotes, List.flatMap_cons, List.length_append, hcons, ← ih, escapeQuotes]
    split
    · next hc => subst hc; rfl
    · next hc => rw [weight_singleton hc]; rfl

/-- What a literal weighs that ends here; an escape that has begun counts for one. -/
def Literal.bound (l : Literal) : Nat :=
  weight l.text + match l.mode with
    | .plain => 0
    | .octal _ value => weight [Char.ofNat value]
    | _ => 1

theorem breaks_quote {c : Char} (h : breaks c = false) : c ≠ '"' := by
  rintro rfl
  cases h

theorem bound_plainStep {text : Text} {c : Char} {l : Literal} (h : plainStep text c = some l) :
    l.bound ≤ weight text + 1 := by
  unfold plainStep at h
  split at h
  · cases h
  · next hbreaks =>
    split at h
    · cases h
      exact Nat.le_refl _
    · cases h
      rw [Literal.bound, weight_append, weight_singleton (breaks_quote (by simpa using hbreaks))]
      exact Nat.le_refl _

theorem octalDigit_lt {c : Char} {n : Nat} (h : octalDigit c = some n) : n < 8 := by
  unfold octalDigit at h
  split at h
  · next hc =>
    cases h
    have hle : c.toNat ≤ '7'.toNat := hc.2
    have height : '7'.toNat - '0'.toNat < 8 := by decide
    omega
  · cases h

theorem weight_octal {n : Nat} (h : n < 8) : weight [Char.ofNat n] = 1 := by
  revert n
  decide

section Escapes

variable {named : Text → Option Char} {text : Text} {c d : Char} {l l' : Literal}

theorem simpleEscape_ne_quote (h : simpleEscape c = some d) (hc : c ≠ '"') : d ≠ '"' := by
  unfold simpleEscape at h
  split at h <;> cases h <;> first | decide | exact absurd rfl hc

/-- A backslash that means something takes more characters than the literal gets. -/
theorem bound_escapedStep (h : escapedStep text c = some l) (hc : c ≠ '"') (hharm : harmless c = false) :
    l.bound ≤ weight text + 1 := by
  unfold escapedStep at h
  split at h
  · next d hd =>
    cases h
    rw [Literal.bound, weight_append, weight_singleton (simpleEscape_ne_quote hd hc)]
    exact Nat.le_refl _
  · next hsimple =>
    split at h
    · next n hn =>
      cases h
      exact Nat.add_le_add_left (weight_octal (octalDigit_lt hn)).le _
    · next hoctal =>
      split_ifs at h with hline hnul hx hu hU hN
      · cases h
        exact Nat.le_succ _
      all_goals try
        cases h
        exact Nat.le_refl _
      push Not at hline
      rw [← Bool.not_eq_true] at hharm
      refine absurd ?_ hharm
      simp [harmless, breaks, hsimple, hoctal, hc, hline, hnul, hx, hu, hU, hN]

theorem escapedStep_of_harmless (h : harmless c = true) (text : Text) :
    escapedStep text c = some ⟨text ++ ['\\', c], .plain⟩ := by
  simp only [harmless, breaks, Bool.and_eq_true, Bool.not_eq_true', Bool.or_eq_false_iff, decide_eq_false_iff_not,
    decide_eq_true_eq, Option.isNone_iff_eq_none] at h
  obtain ⟨⟨⟨⟨⟨⟨⟨⟨⟨-, hn⟩, hr⟩, hnul⟩, hsimple⟩, hoctal⟩, hx⟩, hu⟩, hU⟩, hN⟩ := h
  simp [escapedStep, hsimple, hoctal, hn, hr, hnul, hx, hu, hU, hN]

theorem bound_escapedStep_le (h : escapedStep text c = some l) : l.bound ≤ weight text + 2 := by
  by_cases hc : c = '"'
  · subst hc
    cases h
    rw [Literal.bound, weight_append]
    exact Nat.le_refl _
  · cases hharm : harmless c with
    | false => exact (bound_escapedStep h hc hharm).trans (Nat.le_succ _)
    | true =>
      rw [escapedStep_of_harmless hharm] at h
      cases h
      have hpair : weight ['\\', c] = weight ['\\'] + weight [c] := weight_append ['\\'] [c]
      rw [Literal.bound, weight_append, hpair, weight_singleton hc]
      exact Nat.le_refl _

/-- A character makes the literal weigh one more at most. -/
theorem bound_literalStep (h : literalStep named l c = some l') : l'.bound ≤ l.bound + 1 := by
  obtain ⟨text, mode⟩ := l
  cases mode with
  | plain => exact bound_plainStep h
  | escaped => exact bound_escapedStep_le h
  | octal left value =>
    have hpos := weight_singleton_pos (Char.ofNat value)
    unfold literalStep at h
    dsimp only at h
    split at h
    · next n hn =>
      cases h
      have hle := weight_singleton_le (Char.ofNat (value * 8 + n))
      simp only [Literal.bound]
      omega
    · have hstep := bound_plainStep h
      rw [weight_append] at hstep
      exact hstep
  | hex left value =>
    unfold literalStep at h
    dsimp only at h
    split at h
    · next n hn =>
      split at h
      · split at h
        · cases h
          have hle := weight_singleton_le (Char.ofNat (value * 16 + n))
          simp only [Literal.bound, weight_append]
          omega
        · cases h
      · cases h
        exact Nat.le_succ _
    · cases h
  | nameOpen =>
    unfold literalStep at h
    dsimp only at h
    split at h
    · cases h
      exact Nat.le_succ _
    · cases h
  | name acc =>
    unfold literalStep at h
    dsimp only at h
    split at h
    · obtain ⟨d, -, rfl⟩ := Option.map_eq_some_iff.1 h
      have hle := weight_singleton_le d
      simp only [Literal.bound, weight_append]
      omega
    · split at h
      · cases h
      · cases h
        exact Nat.le_succ _

theorem bound_literalFrom {s : Text} (h : literalFrom named l s = some l') : l'.bound ≤ l.bound + s.length := by
  induction s generalizing l with
  | nil =>
    cases h
    exact Nat.le_refl _
  | cons c s ih =>
    rw [literalFrom, List.foldlM_cons] at h
    obtain ⟨l₁, hstep, hrest⟩ := Option.bind_eq_some_iff.1 h
    have h₁ := bound_literalStep hstep
    have h₂ := ih hrest
    rw [List.length_cons]
    omega

theorem weight_finish {t : Text} (h : l.finish = some t) : weight t ≤ l.bound := by
  obtain ⟨text, mode⟩ := l
  cases mode with
  | plain =>
    cases h
    exact Nat.le_refl _
  | octal left value =>
    cases h
    rw [weight_append]
    exact Nat.le_refl _
  | escaped | hex | nameOpen | name => cases h

/-- The value of what follows weighs no more than the literal so far and that text. -/
theorem weight_of_literalFrom {s t : Text} (h : (literalFrom named l s).bind Literal.finish = some t) :
    weight t ≤ l.bound + s.length := by
  obtain ⟨l', hread, hfinish⟩ := Option.bind_eq_some_iff.1 h
  exact (weight_finish hfinish).trans (bound_literalFrom hread)

end Escapes

/-! ## Messages that are printed as they are -/

section Messages

variable {named : Text → Option Char} {p q : Text}

theorem literalFrom_cons (l : Literal) (c : Char) (s : Text) :
    literalFrom named l (c :: s) = (literalStep named l c).bind fun l' => literalFrom named l' s :=
  List.foldlM_cons

theorem literalFrom_of_step {l l' : Literal} {c : Char} (h : literalStep named l c = some l') (s : Text) :
    literalFrom named l (c :: s) = literalFrom named l' s := by
  rw [literalFrom_cons, h, Option.bind_some]

theorem escapeQuotes_cons {c : Char} (hc : c ≠ '"') (s : Text) : escapeQuotes (c :: s) = c :: escapeQuotes s := by
  simp [escapeQuotes, hc]

theorem escapeQuotes_quote (s : Text) : escapeQuotes ('"' :: s) = '\\' :: '"' :: escapeQuotes s := by
  simp [escapeQuotes]

theorem literalFrom_quote (s : Text) : literalFrom named ⟨p, .plain⟩ ('\\' :: '"' :: s) =
    literalFrom named ⟨p ++ ['"'], .plain⟩ s := by
  have hback : literalStep named ⟨p, .plain⟩ '\\' = some ⟨p, .escaped⟩ := rfl
  have hquote : literalStep named ⟨p, .escaped⟩ '"' = some ⟨p ++ ['"'], .plain⟩ := rfl
  rw [literalFrom_of_step hback, literalFrom_of_step hquote]

theorem plainStep_of_char {c : Char} (hb : breaks c = false) (hback : c ≠ '\\') :
    plainStep p c = some ⟨p ++ [c], .plain⟩ := by
  simp [plainStep, hb, hback]

theorem literalFrom_of_verbatim (h : verbatim q = true) :
    literalFrom named ⟨p, .plain⟩ (escapeQuotes q) = some ⟨p ++ q, .plain⟩ := by
  induction q using verbatim.induct generalizing p with
  | case1 =>
    rw [List.append_nil]
    rfl
  | case2 c rest ih =>
    rw [verbatim, Bool.and_eq_true] at h
    have hc : c ≠ '"' := by
      rintro rfl
      cases h.1
    have hback : literalStep named ⟨p, .plain⟩ '\\' = some ⟨p, .escaped⟩ := rfl
    have hstep : literalStep named ⟨p, .escaped⟩ c = some ⟨p ++ ['\\', c], .plain⟩ := escapedStep_of_harmless h.1 p
    rw [escapeQuotes_cons (by decide), escapeQuotes_cons hc, literalFrom_of_step hback, literalFrom_of_step hstep,
      ih h.2, List.append_assoc]
    rfl
  | case3 c rest hno ih =>
    rw [verbatim] at h
    · simp only [Bool.and_eq_true, decide_eq_true_eq] at h
      obtain ⟨⟨⟨⟨⟨hback, hquote⟩, hn⟩, hr⟩, hnul⟩, hrest⟩ := h
      by_cases hc : c = '"'
      · subst hc
        rw [escapeQuotes_quote, literalFrom_quote, ih hrest, List.append_assoc]
        rfl
      · have hb : breaks c = false := by simp [breaks, hc, hn, hr, hnul]
        have hstep : literalStep named ⟨p, .plain⟩ c = some ⟨p ++ [c], .plain⟩ := plainStep_of_char hb hback
        rw [escapeQuotes_cons hc, literalFrom_of_step hstep, ih hrest, List.append_assoc]
        rfl
    · exact hno

/-- A value that weighs as much as its literal has no harm in it. -/
theorem verbatim_of_literalFrom {t : Text} (hquote : '\'' ∉ q)
    (h : (literalFrom named ⟨p, .plain⟩ (escapeQuotes q)).bind Literal.finish = some t)
    (hweight : weight t = weight p + weight q) : verbatim q = true := by
  induction q using verbatim.induct generalizing p with
  | case1 => rfl
  | case2 c rest ih =>
    have hw : weight ('\\' :: c :: rest) = 1 + weight [c] + weight rest := by
      have happend := weight_append ['\\', c] rest
      have hpair := weight_append ['\\'] [c]
      have hback : weight ['\\'] = 1 := rfl
      simp only [List.cons_append, List.nil_append] at happend hpair
      omega
    have hback : literalStep named ⟨p, .plain⟩ '\\' = some ⟨p, .escaped⟩ := rfl
    rw [escapeQuotes_cons (by decide), literalFrom_of_step hback] at h
    by_cases hc : c = '"'
    · -- the backslash takes the one that was to escape the quote
      subst hc
      have hstep : literalStep named ⟨p, .escaped⟩ '\\' = some ⟨p ++ ['\\'], .plain⟩ := rfl
      have hend : literalStep named ⟨p ++ ['\\'], .plain⟩ '"' = none := rfl
      rw [escapeQuotes_quote, literalFrom_of_step hstep, literalFrom_cons, hend, Option.bind_none,
        Option.bind_none] at h
      cases h
    · rw [escapeQuotes_cons hc, literalFrom_cons] at h
      obtain ⟨l, hl, hfinish⟩ := Option.bind_eq_some_iff.1 h
      obtain ⟨l₁, hstep, hrest⟩ := Option.bind_eq_some_iff.1 hl
      have hlater : (literalFrom named l₁ (escapeQuotes rest)).bind Literal.finish = some t :=
        Option.bind_eq_some_iff.2 ⟨l, hrest, hfinish⟩
      cases hharm : harmless c with
      | true =>
        rw [verbatim, hharm, Bool.true_and]
        have hstep' : literalStep named ⟨p, .escaped⟩ c = some ⟨p ++ ['\\', c], .plain⟩ :=
          escapedStep_of_harmless hharm p
        rw [hstep', Option.some.injEq] at hstep
        subst hstep
        refine ih (fun hm => hquote (by simp [hm])) hlater ?_
        have hpair : weight ['\\', c] = 1 + weight [c] := weight_append ['\\'] [c]
        rw [weight_append, hpair, hweight, hw]
        omega
      | false =>
        have hbound : l₁.bound ≤ weight p + 1 := bound_escapedStep hstep hc hharm
        have hle := weight_of_literalFrom hlater
        rw [length_escapeQuotes] at hle
        rw [weight_singleton hc] at hw
        omega
  | case3 c rest hno ih =>
    obtain ⟨hne, hrest⟩ := List.ne_and_not_mem_of_not_mem_cons hquote
    have hw : weight (c :: rest) = weight [c] + weight rest := weight_append [c] rest
    by_cases hc : c = '"'
    · subst hc
      rw [escapeQuotes_quote, literalFrom_quote] at h
      have hv := ih hrest h (by rw [weight_append, hweight, hw]; omega)
      rw [verbatim, hv]
      · rfl
      · exact hno
    · rw [escapeQuotes_cons hc, literalFrom_cons] at h
      obtain ⟨l, hl, hfinish⟩ := Option.bind_eq_some_iff.1 h
      obtain ⟨l₁, hstep, hlater⟩ := Option.bind_eq_some_iff.1 hl
      by_cases hback : c = '\\'
      · subst hback
        cases rest with
        | nil =>
          cases hstep
          cases hlater
          cases hfinish
        | cons d rest => exact absurd rfl (hno d rest rfl)
      · cases hb : breaks c with
        | true =>
          rw [show literalStep named ⟨p, .plain⟩ c = none by simp [literalStep, plainStep, hb]] at hstep
          cases hstep
        | false =>
          have hstep' : literalStep named ⟨p, .plain⟩ c = some ⟨p ++ [c], .plain⟩ := plainStep_of_char hb hback
          rw [hstep', Option.some.injEq] at hstep
          subst hstep
          have hv := ih hrest (Option.bind_eq_some_iff.2 ⟨l, hlater, hfinish⟩)
            (by rw [weight_append, hweight, hw]; omega)
          simp only [breaks, Bool.or_eq_false_iff, decide_eq_false_iff_not] at hb
          rw [verbatim, hv]
          · simp [hback, Ne.symm hne, hb]
          · exact hno

end Messages

/-! ## Lines and words of the commands -/

section Lines

variable {a b s : Text}

theorem oneLine_append : OneLine (a ++ b) ↔ OneLine a ∧ OneLine b := by
  simp [OneLine, not_or]

theorem oneLine_lldbQuote : OneLine (lldbQuote s) ↔ OneLine s := by
  have hmem : ∀ c : Char, '\n' ∈ (if c = '\'' then "'\\''".toList else [c]) ↔ '\n' = c := by
    intro c
    split
    · next hc => subst hc; decide
    · simp
  simp only [OneLine, lldbQuote, quote, List.mem_append, List.mem_flatMap, hmem]
  simp

theorem oneLine_escapeQuotes : OneLine (escapeQuotes s) ↔ OneLine s := by
  have hmem : ∀ c : Char, '\n' ∈ (if c = '"' then ['\\', '"'] else [c]) ↔ '\n' = c := by
    intro c
    split
    · next hc => subst hc; decide
    · simp
  simp [OneLine, escapeQuotes, hmem]

theorem oneLine_displayInt (n : Int) : OneLine (Text.displayInt n) :=
  Text.not_mem_displayInt (by decide) (by decide) n

theorem reads_displayInt (n : Int) : Text.Reads (Text.displayInt n) (Text.displayInt n) := by
  refine Text.reads_plain ?_ fun c hc => ?_
  · cases n with
    | ofNat n => exact Nat.toDigits_ne_nil
    | negSucc n => exact List.cons_ne_nil _ _
  · have hdigit := Text.mem_displayInt hc
    cases hplain : isPlain c with
    | true => rfl
    | false =>
      have hcases : c = ' ' ∨ c = '\t' ∨ c = '\'' ∨ c = '\\' := by
        by_contra hno
        push Not at hno
        simp [isPlain, Text.isBlank, hno] at hplain
      rcases hcases with rfl | rfl | rfl | rfl <;> revert hdigit <;> decide

/-- The lines are the commands where no command has a line feed in it. -/
theorem forall₂_readLines {R : Text → (List Text → Prop) → Prop} {cs : List Text} {wants : List (List Text → Prop)}
    (hlen : cs.length = wants.length) :
    List.Forall₂ R (readLines [] (writeLines cs)) wants ↔ (∀ c ∈ cs, OneLine c) ∧ List.Forall₂ R cs wants := by
  constructor
  · intro h
    have hone : ∀ c ∈ cs, OneLine c := Text.readLines_writeLines_iff.1 (h.length_eq.trans hlen.symm)
    rw [Text.readLines_writeLines hone] at h
    exact ⟨hone, h⟩
  · rintro ⟨hone, h⟩
    rwa [Text.readLines_writeLines hone]

end Lines

section Words

variable (file : Text) (line : UInt32)

theorem readsAll_setLine : Text.ReadsAll ("breakpoint set --file ".toList ++ lldbQuote file ++ " --line ".toList)
    ["breakpoint".toList, "set".toList, "--file".toList, file, "--line".toList] := by
  have hset : Text.ReadsAll "breakpoint set --file ".toList ["breakpoint".toList, "set".toList, "--file".toList] := rfl
  have hline : Text.Reads "--line".toList "--line".toList := Text.reads_plain (by decide) (List.all_eq_true.1 rfl)
  have h := (hset.snoc (Text.reads_quote file)).snoc hline
  simpa [lldbQuote] using h

theorem splitWords_setLine : splitWords ("breakpoint set --file ".toList ++ lldbQuote file ++ " --line ".toList ++
    Text.displayInt line.toNat) = some ["breakpoint".toList, "set".toList, "--file".toList, file, "--line".toList,
      Text.displayInt line.toNat] :=
  (readsAll_setLine file).splitWords (reads_displayInt _)

theorem splitWords_condition (condition : Text) : splitWords ("breakpoint set --file ".toList ++ lldbQuote file ++
    " --line ".toList ++ Text.displayInt line.toNat ++ " --condition ".toList ++ lldbQuote condition) =
      some ["breakpoint".toList, "set".toList, "--file".toList, file, "--line".toList, Text.displayInt line.toNat,
        "--condition".toList, condition] := by
  have hword : Text.Reads "--condition".toList "--condition".toList := Text.reads_plain (by decide) (List.all_eq_true.1 rfl)
  have h := ((readsAll_setLine file).snoc (reads_displayInt line.toNat)).snoc hword
  simpa [lldbQuote] using h.splitWords (Text.reads_quote condition)

theorem splitWords_autoContinue : splitWords ("breakpoint set --file ".toList ++ lldbQuote file ++
    " --line ".toList ++ Text.displayInt line.toNat ++ " --auto-continue 1".toList) =
      some ["breakpoint".toList, "set".toList, "--file".toList, file, "--line".toList, Text.displayInt line.toNat,
        "--auto-continue".toList, "1".toList] := by
  have hword : Text.Reads "--auto-continue".toList "--auto-continue".toList :=
    Text.reads_plain (by decide) (List.all_eq_true.1 rfl)
  have hone : Text.Reads "1".toList "1".toList := Text.reads_plain (by decide) (List.all_eq_true.1 rfl)
  have h := ((readsAll_setLine file).snoc (reads_displayInt line.toNat)).snoc hword
  simpa using h.splitWords hone

end Words

section Log

variable {named : Text → Option Char} {message : Text}

/-- The statement of a logpoint. -/
def printStmt (message : Text) : Text :=
  printOpen ++ escapeQuotes message ++ printClose

theorem literalValue_of_prints {s : Text} (h : Prints named (printStmt s) message) :
    literalValue named (escapeQuotes s) = some message := by
  obtain ⟨s', heq, hvalue⟩ := h
  rw [printStmt, List.append_left_inj, List.append_right_inj] at heq
  rwa [heq]

theorem quote_mem_escapeQuotes {s : Text} : '\'' ∈ escapeQuotes s ↔ '\'' ∈ s := by
  have hmem : ∀ c : Char, '\'' ∈ (if c = '"' then ['\\', '"'] else [c]) ↔ '\'' = c := by
    intro c
    split
    · next hc => subst hc; decide
    · simp
  simp only [escapeQuotes, List.mem_flatMap, hmem]
  simp

theorem quote_not_mem_of_verbatim {s : Text} (h : verbatim s = true) : '\'' ∉ s ∧ OneLine s := by
  induction s using verbatim.induct with
  | case1 => exact ⟨List.not_mem_nil, List.not_mem_nil⟩
  | case2 c rest ih =>
    rw [verbatim, Bool.and_eq_true] at h
    obtain ⟨hquote, hline⟩ := ih h.2
    have hc : c ≠ '\'' ∧ c ≠ '\n' := by
      constructor
      · rintro rfl
        cases h.1
      · rintro rfl
        cases h.1
    simp [OneLine] at hline ⊢
    exact ⟨⟨hc.1.symm, hquote⟩, hc.2.symm, hline⟩
  | case3 c rest hno ih =>
    rw [verbatim] at h
    · simp only [Bool.and_eq_true, decide_eq_true_eq] at h
      obtain ⟨⟨⟨⟨⟨-, hc⟩, hn⟩, -⟩, -⟩, hrest⟩ := h
      obtain ⟨hquote, hline⟩ := ih hrest
      simp [OneLine] at hline ⊢
      exact ⟨⟨hc.symm, hquote⟩, hn.symm, hline⟩
    · exact hno

theorem quote_mem_printStmt : '\'' ∈ printStmt message ↔ '\'' ∈ message := by
  have hopen : '\'' ∉ printOpen := by decide
  have hclose : '\'' ∉ printClose := by decide
  rw [printStmt, List.mem_append, List.mem_append, quote_mem_escapeQuotes]
  simp [hopen, hclose]

/-- A logpoint prints the message exactly when that is verbatim. -/
theorem log_words_iff {line : Text} {ws : List Text} (hline : Text.ReadsAll line ws) (message : Text) :
    (∃ words, splitWords (line ++ (['\''] ++ printStmt message ++ ['\''])) = some words ∧
      ∃ stmt, words = ws ++ [stmt] ∧ Prints named stmt message) ↔ verbatim message = true := by
  constructor
  · rintro ⟨words, hwords, stmt, rfl, hprints⟩
    by_cases hquote : '\'' ∈ message
    · -- the word has lost the quote, and the literal in it cannot be that short
      have hlast : (printStmt message).getLast? ≠ some '\\' := by
        have hclose : printClose.getLast? ≠ some '\\' := by decide
        rwa [printStmt, List.getLast?_append_of_ne_nil _ (by decide)]
      have hlt := Text.length_lt_of_quote hline (quote_mem_printStmt.2 hquote) hlast hwords
      obtain ⟨s, rfl, hvalue⟩ := hprints
      have hweight := weight_of_literalFrom hvalue
      have hzero : Literal.bound ⟨[], .plain⟩ = 0 := rfl
      rw [hzero, ← length_escapeQuotes] at hweight
      simp only [printStmt, List.length_append] at hlt
      omega
    · have hsplit := hline.splitWords (Text.reads_between (mt quote_mem_printStmt.1 hquote))
      rw [hsplit, Option.some.injEq, List.append_cancel_left_eq, List.singleton_inj] at hwords
      subst hwords
      refine verbatim_of_literalFrom hquote (literalValue_of_prints hprints) ?_
      exact (Nat.zero_add _).symm
  · intro h
    obtain ⟨hquote, -⟩ := quote_not_mem_of_verbatim h
    refine ⟨_, hline.splitWords (Text.reads_between (mt quote_mem_printStmt.1 hquote)), _, rfl, _, rfl, ?_⟩
    rw [literalValue, literalFrom_of_verbatim h]
    rfl

end Log

/-! ## The operations -/

section Operations

variable {named : Text → Option Char}

theorem forall₂_one {R : Text → (List Text → Prop) → Prop} {c : Text} {want : List Text → Prop} :
    (∀ d ∈ [c], OneLine d) ∧ List.Forall₂ R [c] [want] ↔ OneLine c ∧ R c want := by
  simp

theorem forall₂_two {R : Text → (List Text → Prop) → Prop} {c c' : Text} {want want' : List Text → Prop} :
    (∀ d ∈ [c, c'], OneLine d) ∧ List.Forall₂ R [c, c'] [want, want'] ↔
      (OneLine c ∧ R c want) ∧ OneLine c' ∧ R c' want' := by
  simp
  tauto

theorem raw_iff {line s : Text} {ws : List Text} (hline : Text.ReadsAll line ws) (hone : OneLine line) :
    (OneLine (line ++ s) ∧ ∃ words, splitWords (line ++ s) = some words ∧ words = ws ++ [s]) ↔ OneWord s := by
  have hwords : (∃ words, splitWords (line ++ s) = some words ∧ words = ws ++ [s]) ↔
      splitWords (line ++ s) = some (ws ++ [s]) := by
    simp
  rw [hwords, Text.splitWords_raw_iff hline, oneLine_append]
  constructor
  · rintro ⟨⟨-, hs⟩, hne, hplain⟩
    refine ⟨hne, fun c hc => ⟨hplain c hc, ?_⟩⟩
    rintro rfl
    exact hs hc
  · rintro ⟨hne, hplain⟩
    exact ⟨⟨hone, fun hn => (hplain _ hn).2 rfl⟩, hne, fun c hc => (hplain c hc).1⟩

theorem addCommand_eq (message : Text) :
    "breakpoint command add --script-type python -o 'print(\"".toList ++ escapeQuotes message ++ "\")'".toList =
      "breakpoint command add --script-type python -o ".toList ++ (['\''] ++ printStmt message ++ ['\'']) := by
  have hopen : "breakpoint command add --script-type python -o 'print(\"".toList =
      "breakpoint command add --script-type python -o ".toList ++ (['\''] ++ printOpen) := by
    have happend : "breakpoint command add --script-type python -o 'print(\"" =
        "breakpoint command add --script-type python -o " ++ "'print(\"" := rfl
    have hquote : "'print(\"".toList = ['\''] ++ printOpen := by decide
    rw [happend, String.toList_append, hquote]
  have hclose : "\")'".toList = printClose ++ ['\''] := by decide
  rw [hopen, hclose, printStmt]
  simp only [List.append_assoc]

/-- A command whose words are the intended ones in any case. -/
theorem known_iff {c : Text} {ws : List Text} (h : splitWords c = some ws) :
    (OneLine c ∧ ∃ words, splitWords c = some words ∧ words = ws) ↔ OneLine c :=
  and_iff_left ⟨ws, h, rfl⟩

theorem quoted_iff {line s : Text} {ws : List Text} (hline : Text.ReadsAll line ws) (hone : OneLine line) :
    (OneLine (line ++ lldbQuote s) ∧ ∃ words, splitWords (line ++ lldbQuote s) = some words ∧ words = ws ++ [s]) ↔
      OneLine s := by
  have hwords : splitWords (line ++ lldbQuote s) = some (ws ++ [s]) := hline.splitWords (Text.reads_quote s)
  rw [known_iff hwords, oneLine_append, oneLine_lldbQuote]
  exact and_iff_right hone

theorem oneLine_setLine (file : Text) (line : UInt32) : OneLine ("breakpoint set --file ".toList ++ lldbQuote file ++
    " --line ".toList ++ Text.displayInt line.toNat) ↔ OneLine file := by
  have hset : OneLine "breakpoint set --file ".toList := by decide
  have hline : OneLine " --line ".toList := by decide
  simp only [oneLine_append, oneLine_lldbQuote, hset, hline, oneLine_displayInt, true_and, and_true]

theorem setBreakpoint_iff (file : Text) (line : UInt32) :
    (Operation.setBreakpoint file line).Faithful named ↔ OneLine file := by
  rw [Operation.Faithful, forall₂_readLines rfl]
  exact forall₂_one.trans ((known_iff (splitWords_setLine file line)).trans (oneLine_setLine file line))

theorem setConditionalBreakpoint_iff (file : Text) (line : UInt32) (condition : Text) :
    (Operation.setConditionalBreakpoint file line condition).Faithful named ↔ OneLine file ∧ OneLine condition := by
  have hword : OneLine " --condition ".toList := by decide
  rw [Operation.Faithful, forall₂_readLines rfl]
  refine forall₂_one.trans ((known_iff (splitWords_condition file line condition)).trans ?_)
  rw [oneLine_append, oneLine_append, oneLine_setLine, oneLine_lldbQuote]
  simp only [hword, and_true]

theorem setLogBreakpoint_iff (file : Text) (line : UInt32) (logMsg : Text) :
    (Operation.setLogBreakpoint file line logMsg).Faithful named ↔ OneLine file ∧ verbatim logMsg = true := by
  have hadd : Text.ReadsAll "breakpoint command add --script-type python -o ".toList
      ["breakpoint".toList, "command".toList, "add".toList, "--script-type".toList, "python".toList, "-o".toList] := by
    repeat rw [Text.toList_literal rfl]
    rfl
  have hauto : OneLine " --auto-continue 1".toList := by decide
  rw [Operation.Faithful, forall₂_readLines rfl]
  refine forall₂_two.trans (and_congr ?_ ?_)
  · refine (known_iff (splitWords_autoContinue file line)).trans ?_
    rw [oneLine_append, oneLine_setLine]
    exact and_iff_left hauto
  · rw [addCommand_eq]
    refine Iff.trans (and_congr_right fun _ => log_words_iff hadd logMsg) ?_
    refine and_iff_right_of_imp fun h => ?_
    have hline : OneLine "breakpoint command add --script-type python -o ".toList := by decide
    have hopen : OneLine printOpen := by decide
    have hclose : OneLine printClose := by decide
    have hquote : OneLine ['\''] := by decide
    simp only [oneLine_append, printStmt, oneLine_escapeQuotes, hline, hopen, hclose, hquote,
      (quote_not_mem_of_verbatim h).2, and_self]

theorem spawnAndAttach_iff (binaryPath : Text) (printersPath : Option Text) :
    (Operation.spawnAndAttach binaryPath printersPath).Faithful named ↔
      OneLine binaryPath ∧ OneWord (printersPath.getD defaultPrinters) := by
  have himport : Text.ReadsAll "command script import ".toList
      ["command".toList, "script".toList, "import".toList] := by decide
  have hcreate : Text.ReadsAll "target create ".toList ["target".toList, "create".toList] := by decide
  rw [Operation.Faithful, forall₂_readLines rfl]
  refine forall₂_two.trans ((and_congr (raw_iff himport (by decide)) (quoted_iff hcreate (by decide))).trans ?_)
  exact and_comm

theorem accessArg_cases (access : Option Text) : accessArg access = none ∨
    ∃ arg ∈ ["write".toList, "read".toList, "read_write".toList], accessArg access = some arg := by
  cases access with
  | none => exact .inr ⟨_, by decide, rfl⟩
  | some access =>
    rw [accessArg]
    split
    · exact .inr ⟨_, by decide, rfl⟩
    · split
      · exact .inr ⟨_, by decide, rfl⟩
      · split
        · exact .inr ⟨_, by decide, rfl⟩
        · exact .inl rfl

theorem readsAll_watch : ∀ arg ∈ ["write".toList, "read".toList, "read_write".toList],
    Text.ReadsAll ("watchpoint set variable -w ".toList ++ arg ++ " ".toList)
      ["watchpoint".toList, "set".toList, "variable".toList, "-w".toList, arg] ∧
        OneLine ("watchpoint set variable -w ".toList ++ arg ++ " ".toList) := by
  repeat rw [Text.toList_literal rfl]
  decide

theorem setWatchpoint_iff (watched : Text) (access : Option Text) :
    (Operation.setWatchpoint watched access).Faithful named ↔ accessArg access = none ∨ OneLine watched := by
  rcases accessArg_cases access with hnone | ⟨arg, harg, hsome⟩
  · have hcommands : (Operation.setWatchpoint watched access).commands = [] := by
      rw [Operation.commands, setWatchpoint, hnone]
    have hintended : (Operation.setWatchpoint watched access).intended named = [] := by
      rw [Operation.intended, hnone]
    rw [Operation.Faithful, hcommands, hintended]
    exact iff_of_true .nil (.inl hnone)
  · have hcommands : (Operation.setWatchpoint watched access).commands =
        ["watchpoint set variable -w ".toList ++ arg ++ " ".toList ++ lldbQuote watched] := by
      rw [Operation.commands, setWatchpoint, hsome]
    have hintended : (Operation.setWatchpoint watched access).intended named =
        [(· = ["watchpoint".toList, "set".toList, "variable".toList, "-w".toList, arg, watched])] := by
      rw [Operation.intended, hsome]
    obtain ⟨hline, hone⟩ := readsAll_watch arg harg
    rw [Operation.Faithful, hcommands, hintended, forall₂_readLines rfl, hsome]
    refine (forall₂_one.trans (quoted_iff hline hone)).trans ?_
    simp

theorem evaluate_iff (expression : Text) (frameId : Option Int64) :
    (Operation.evaluate expression frameId).Faithful named ↔ OneWord expression := by
  have hexpr : Text.ReadsAll "expression -- ".toList ["expression".toList, "--".toList] := by decide
  cases frameId with
  | none =>
    rw [Operation.Faithful, forall₂_readLines rfl]
    exact forall₂_one.trans (raw_iff hexpr (by decide))
  | some fid =>
    have hframe : Text.ReadsAll "frame select ".toList ["frame".toList, "select".toList] := by decide
    have hselect : splitWords ("frame select ".toList ++ Text.displayInt64 fid) =
        some ["frame".toList, "select".toList, Text.displayInt64 fid] :=
      hframe.splitWords (reads_displayInt fid.toInt)
    have hone : OneLine ("frame select ".toList ++ Text.displayInt64 fid) :=
      oneLine_append.2 ⟨by decide, oneLine_displayInt fid.toInt⟩
    rw [Operation.Faithful, forall₂_readLines rfl]
    refine forall₂_two.trans ((and_congr (known_iff hselect) (raw_iff hexpr (by decide))).trans ?_)
    exact and_iff_right hone

end Operations

/-- An operation gets its texts through, each as one word of a line of its own, exactly when it is safe. -/
theorem faithful_iff (named : Text → Option Char) (op : Operation) : op.Faithful named ↔ op.Safe := by
  cases op with
  | spawnAndAttach binaryPath printersPath => exact spawnAndAttach_iff binaryPath printersPath
  | setBreakpoint file line => exact setBreakpoint_iff file line
  | setConditionalBreakpoint file line condition => exact setConditionalBreakpoint_iff file line condition
  | setLogBreakpoint file line logMsg => exact setLogBreakpoint_iff file line logMsg
  | setWatchpoint watched access => exact setWatchpoint_iff watched access
  | evaluate expression frameId => exact evaluate_iff expression frameId

/-- A path with a blank in it, though the debugger would take it in quotes. -/
theorem printers_split : ¬∀ (named : Text → Option Char) (op : Operation), op.Faithful named := by
  intro h
  have hsafe := (spawnAndAttach_iff "/tmp/app".toList (some "/opt/my tools/printers.py".toList)).1 (h (fun _ => none) _)
  exact absurd (hsafe.2.2 ' ' (by decide)).1 (by decide)

end Cobrust.Dap.Wire
