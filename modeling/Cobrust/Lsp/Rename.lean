import Cobrust.Control.Outcome
import Cobrust.Frontend.Spans
import Cobrust.Frontend.Words
import Cobrust.Lsp.Occurrences

/-!
# Renames

The `textDocument/rename` handler of `cobrust-lsp/src/rename.rs`: the name under the cursor, and an edit for each place
where it is a whole word of the source.

* `collectOccurrences_spec`: the edits, and the identifiers among them.
-/

namespace Cobrust.Lsp

open Control (exists_except_mapM map_eq_of_mapM)
open Text (Position)
open Frontend (Overflow Source Token Unicode lex)

/-! ## The handler -/

/-- `KEYWORDS` of `cobrust-lsp/src/completion.rs`. -/
def keywords : List String :=
  ["def", "let", "mut", "if", "else", "elif", "for", "while", "break", "continue", "return", "class", "enum", "match",
    "with", "and", "or", "not", "True", "False", "None", "pass", "raise", "try", "except", "finally", "import", "from",
    "as", "in", "is", "yield", "async", "await", "type"]

def isKeyword (name : Text) : Bool :=
  keywords.any fun k => k.toList = name

/-- The name at a position and its offsets, unless it is a keyword or has no type in the context. -/
def resolveRenameSymbol (source : Text) (lineMap : LineMap) (position : Position) (bound : Text → Bool) :
    Except Fault (Option (Text × Nat × Nat)) := do
  let some byteOffset ← lineMap.positionToByte position | return none
  let some (wordStart, wordEnd) := wordAtOffset source byteOffset | return none
  let some name := Text.slice source wordStart wordEnd | return none
  if isKeyword name then return none
  if bound name then return some (name, wordStart, wordEnd) else return none

structure TextEdit where
  start : Position
  stop : Position
  newText : Text

/-- `byte_to_position` of an offset that is to fit 32 bits. -/
def offsetPosition (lineMap : LineMap) (offset : Nat) : Except Fault Position :=
  if offset < 2 ^ 32 then lineMap.byteToPosition offset else .error .panic

/-- The edit of one occurrence. -/
def rangeEdit (lineMap : LineMap) (newName : Text) (range : Nat × Nat) : Except Fault TextEdit := do
  return ⟨← offsetPosition lineMap range.1, ← offsetPosition lineMap range.2, newName⟩

def collectOccurrences (source oldName newName : Text) (lineMap : LineMap) : Except Fault (List TextEdit) :=
  (wordOccurrences source oldName).mapM (rangeEdit lineMap newName)

/-- `rename_symbol`; the edits are those of one document. -/
def renameSymbol (source : Text) (lineMap : LineMap) (position : Position) (newName : Text) (bound : Text → Bool) :
    Except Fault (Option (List TextEdit)) := do
  let some (oldName, _, _) ← resolveRenameSymbol source lineMap position bound | return none
  return some (← collectOccurrences source oldName newName lineMap)

/-- The edit of the name that stands behind `before`. -/
def EditsBehind (source name newName before : Text) (e : TextEdit) : Prop :=
  (LineMap.fromSource source).byteToPosition (Text.bytes before).length = .ok e.start ∧
    (LineMap.fromSource source).byteToPosition ((Text.bytes before).length + (Text.bytes name).length) = .ok e.stop ∧
      e.newText = newName

variable {source name newName before : Text} {file : Nat} {u : Unicode} {ov : Overflow} {out : List Token}

/-- What the handler renames is the word under the cursor. -/
theorem resolveRenameSymbol_word {lineMap : LineMap} {position : Position} {bound : Text → Bool} {ws we : Nat}
    (h : resolveRenameSymbol source lineMap position bound = .ok (some (name, ws, we))) :
    ∃ off, wordAtOffset source off = some (ws, we) ∧ Text.slice source ws we = some name := by
  obtain ⟨off, -, h⟩ := Control.except_bind_ok.1 h
  cases off with
  | none => cases h
  | some off =>
    refine ⟨off, ?_⟩
    dsimp only at h
    split at h
    next ws' we' hword =>
      split at h
      next name' hslice =>
        split at h
        next => cases h
        next =>
          split at h
          next =>
            cases h
            exact ⟨hword, hslice⟩
          next => cases h
      next => cases h
    next => cases h

/-- The edits of a rename are those of the word under the cursor. -/
theorem renameSymbol_edits {lineMap : LineMap} {position : Position} {bound : Text → Bool} {edits : List TextEdit}
    (h : renameSymbol source lineMap position newName bound = .ok (some edits)) :
    ∃ off ws we name, wordAtOffset source off = some (ws, we) ∧ Text.slice source ws we = some name ∧
      collectOccurrences source name newName lineMap = .ok edits := by
  obtain ⟨resolved, hresolved, h⟩ := Control.except_bind_ok.1 h
  match resolved with
  | none => cases h
  | some (name, ws, we) =>
    obtain ⟨off, hword, hslice⟩ := resolveRenameSymbol_word hresolved
    obtain ⟨edits', hedits, h⟩ := Control.except_bind_ok.1 h
    cases h
    exact ⟨off, ws, we, name, hword, hslice, hedits⟩

theorem offsetPosition_eq {lineMap : LineMap} {offset : Nat} (h : offset < 2 ^ 32) :
    offsetPosition lineMap offset = lineMap.byteToPosition offset :=
  if_pos h

theorem rangeEdit_ok {range : Nat × Nat} {e : TextEdit} (hsize : (Text.bytes source).length < 2 ^ 32)
    (hle : range.1 ≤ range.2) (hstop : range.2 ≤ (Text.bytes source).length) :
    rangeEdit (.fromSource source) newName range = .ok e ↔ (LineMap.fromSource source).byteToPosition range.1 = .ok e.start ∧
      (LineMap.fromSource source).byteToPosition range.2 = .ok e.stop ∧ e.newText = newName := by
  rw [rangeEdit, offsetPosition_eq (by omega), offsetPosition_eq (by omega)]
  cases (LineMap.fromSource source).byteToPosition range.1 with
  | error fault => exact iff_of_false (fun h => by cases h) fun h => by cases h.1
  | ok start =>
    cases (LineMap.fromSource source).byteToPosition range.2 with
    | error fault => exact iff_of_false (fun h => by cases h) fun h => by cases h.2.1
    | ok stop =>
      constructor
      · intro h
        cases h
        exact ⟨rfl, rfl, rfl⟩
      · rintro ⟨hstart, hstop, rfl⟩
        rw [Except.ok.inj hstart, Except.ok.inj hstop]
        rfl

theorem StandsBehind.boundaries (h : StandsBehind source name before) : Text.IsBoundary source (Text.bytes before).length ∧
    Text.IsBoundary source ((Text.bytes before).length + (Text.bytes name).length) ∧
      (Text.bytes before).length + (Text.bytes name).length ≤ (Text.bytes source).length := by
  obtain ⟨after, rfl, -⟩ := h
  refine ⟨isBoundary_before, ?_, ?_⟩
  · rw [← List.append_assoc, ← List.length_append, ← Text.bytes_append]
    exact isBoundary_before
  · rw [Text.bytes_append, Text.bytes_append, List.length_append, List.length_append]
    omega

/-- The edits of a name, for each place where it is a whole word, in their order. -/
theorem exists_collectOccurrences (hname : IsWord name) (hsize : (Text.bytes source).length < 2 ^ 32) :
    ∃ edits, collectOccurrences source name newName (.fromSource source) = .ok edits ∧
      edits.Pairwise (fun e e' => e.stop ≤ e'.start) ∧
        ∀ e, e ∈ edits ↔ ∃ before, StandsBehind source name before ∧ EditsBehind source name newName before e := by
  have hedit : ∀ range ∈ wordOccurrences source name, Text.IsBoundary source range.1 ∧ Text.IsBoundary source range.2 ∧
      range.1 ≤ range.2 ∧ range.2 ≤ (Text.bytes source).length := by
    rintro ⟨a, b⟩ hmem
    obtain ⟨before, rfl, rfl, hstands⟩ := (mem_wordOccurrences hname).1 hmem
    exact ⟨hstands.boundaries.1, hstands.boundaries.2.1, Nat.le_add_right _ _, hstands.boundaries.2.2⟩
  have hstep : ∀ range ∈ wordOccurrences source name, ∃ e, rangeEdit (.fromSource source) newName range = .ok e := by
    intro range hmem
    obtain ⟨hstart, hstop, hle, hend⟩ := hedit range hmem
    obtain ⟨p, q, hp, hq, -⟩ := byteToPosition_mono hsize hstart hstop hle
    exact ⟨⟨p, q, newName⟩, (rangeEdit_ok hsize hle hend).2 ⟨hp, hq, rfl⟩⟩
  obtain ⟨edits, hedits⟩ := exists_except_mapM hstep
  have hmap := map_eq_of_mapM hedits
  refine ⟨edits, hedits, ?_, fun e => ?_⟩
  · have hordered : ((wordOccurrences source name).map (rangeEdit (.fromSource source) newName)).Pairwise fun r r' =>
        ∀ e e', r = .ok e → r' = .ok e' → e.stop ≤ e'.start := by
      rw [List.pairwise_map]
      refine (wordOccurrences_ordered hname).imp_of_mem fun {r r'} hr hr' hle e e' he he' => ?_
      obtain ⟨-, hstop, hrange, hend⟩ := hedit r hr
      obtain ⟨hstart, -, hrange', hend'⟩ := hedit r' hr'
      obtain ⟨-, hq, -⟩ := (rangeEdit_ok hsize hrange hend).1 he
      obtain ⟨hp, -⟩ := (rangeEdit_ok hsize hrange' hend').1 he'
      obtain ⟨p, q, hp', hq', hmono⟩ := byteToPosition_mono hsize hstop hstart hle
      rwa [Except.ok.inj (hq.symm.trans hp'), Except.ok.inj (hp.symm.trans hq')]
    rw [hmap, List.pairwise_map] at hordered
    exact hordered.imp fun h => h _ _ rfl rfl
  · have hmem : e ∈ edits ↔
        ∃ range ∈ wordOccurrences source name, rangeEdit (.fromSource source) newName range = .ok e := by
      rw [← List.mem_map, hmap, List.mem_map]
      exact ⟨fun h => ⟨e, h, rfl⟩, fun ⟨e', h, heq⟩ => Except.ok.inj heq ▸ h⟩
    rw [hmem]
    constructor
    · rintro ⟨⟨a, b⟩, hrange, he⟩
      obtain ⟨-, -, hle, hend⟩ := hedit _ hrange
      obtain ⟨before, rfl, rfl, hstands⟩ := (mem_wordOccurrences hname).1 hrange
      exact ⟨before, hstands, (rangeEdit_ok hsize hle hend).1 he⟩
    · rintro ⟨before, hstands, he⟩
      refine ⟨_, (mem_wordOccurrences hname).2 ⟨before, rfl, rfl, hstands⟩, ?_⟩
      exact (rangeEdit_ok hsize (Nat.le_add_right _ _) hstands.boundaries.2.2).2 he

/-! ## Identifiers -/

/-- An identifier that is spelled like `name` in the source. -/
def SpelledAs (source name : Text) (t : Token) : Prop :=
  t.kind.ident? ≠ none ∧ Text.slice source t.span.start t.span.stop = some name

/-- A letter, a digit or an underscore of ASCII is right before an offset. -/
def FollowsWord (source : Text) (p : Nat) : Prop :=
  ∃ before after c, source = before ++ after ∧ (Text.bytes before).length = p ∧ before.getLast? = some c ∧
    isIdentByte c = true

/-- What goes on a word of the edits goes on a word of the lexer. -/
theorem isXidContinue_of_isIdentByte {c : Char} (h : isIdentByte c = true) : Frontend.isXidContinue u c = true := by
  rw [Frontend.isXidContinue, Bool.or_eq_true]
  exact Or.inl h

/-- What is behind the word of the lexer does not go on it. -/
theorem wordAt_head {s : Source} {p : Nat} {w after : Text} {c : Char} (hw : s.wordAt u p = some w)
    (hdrop : Text.dropBytes s.text p = some (w ++ after)) (hc : after.head? = some c) :
    ¬ Frontend.isXidContinue u c = true := by
  rw [Source.wordAt, hdrop] at hw
  cases hall : w ++ after with
  | nil =>
    rw [hall] at hw
    cases hw
  | cons d rest =>
    rw [hall] at hw
    obtain rfl := Option.some.inj hw
    have hafter : after = rest.dropWhile (Frontend.isXidContinue u) := by
      rw [List.cons_append, List.cons.injEq] at hall
      refine List.append_cancel_left (hall.2.trans ?_)
      exact (List.takeWhile_append_dropWhile).symm
    have hnot := List.head?_dropWhile_not (Frontend.isXidContinue u) rest
    rw [← hafter, hc] at hnot
    exact Bool.eq_false_iff.1 (by simpa using hnot)

/-- An identifier stands as a whole word, unless it goes on one: a number may be right before it. -/
theorem standsBehind_of_token (hsize : (Text.bytes source).length < 2 ^ 32) (hlex : lex u ov ⟨source, file⟩ = .ok out)
    {t : Token} (ht : t ∈ out) (hspelled : SpelledAs source name t) (hnot : ¬ FollowsWord source t.span.start) :
    ∃ before, (Text.bytes before).length = t.span.start ∧
      (Text.bytes before).length + (Text.bytes name).length = t.span.stop ∧ StandsBehind source name before := by
  obtain ⟨hident, hslice⟩ := hspelled
  obtain ⟨i, hi⟩ := List.getElem?_of_mem ht
  obtain ⟨st, -, -, last, stop, htoken, hspan⟩ := Frontend.Lexer.exists_reads_of_lex hlex hi hident
  obtain ⟨n, hn⟩ := Option.ne_none_iff_exists'.1 hident
  rw [Frontend.TokenKind.ident?_eq_some.1 hn] at htoken
  obtain ⟨w, hw, hcut⟩ := Frontend.lexToken_ident_slice htoken
  -- The token is the word that the lexer reads, up to the first character that does not go on.
  have hcut' : Text.slice source st.pos stop = some w := by
    unfold Source.slice at hcut
    split at hcut
    next hcut' =>
      cases hcut
      exact hcut'
    next => cases hcut
  obtain ⟨before, after, hsource, hstart, hstop⟩ := Text.slice_eq_some.1 hcut'
  have hlen : stop ≤ (Text.bytes source).length := by
    rw [hsource, Text.bytes_append, Text.bytes_append, List.length_append, List.length_append]
    omega
  rw [Frontend.span_eq (by omega) (by omega)] at hspan
  rw [hspan] at hslice hnot ⊢
  obtain rfl : w = name := Option.some.inj (hcut'.symm.trans hslice)
  refine ⟨before, hstart, hstart ▸ hstop, after, hsource, fun c hc => ?_, fun c hc => ?_⟩
  · by_contra hc'
    exact hnot ⟨before, w ++ after, c, hsource, hstart, hc, eq_true_of_ne_false hc'⟩
  · have hdrop : Text.dropBytes source st.pos = some (w ++ after) := Text.dropBytes_eq_some.2 ⟨before, hsource, hstart⟩
    rw [Bool.eq_false_iff]
    exact fun hc' => wordAt_head hw hdrop hc (isXidContinue_of_isIdentByte hc')

/-- The edits of a rename are in order and disjoint, one for each place where the word under the cursor stands as a whole
word of ASCII; every identifier that is spelled like it has one, unless a number goes on into it. -/
theorem collectOccurrences_spec (u : Unicode) (ov : Overflow) (source : Text) (file off ws we : Nat) (name newName : Text)
    (out : List Token) (hsize : (Text.bytes source).length < 2 ^ 32) (hlex : lex u ov ⟨source, file⟩ = .ok out)
    (hword : wordAtOffset source off = some (ws, we)) (hname : Text.slice source ws we = some name) :
    ∃ edits, collectOccurrences source name newName (.fromSource source) = .ok edits ∧
      edits.Pairwise (fun e e' => e.stop ≤ e'.start) ∧
      (∀ e, e ∈ edits ↔ ∃ before, StandsBehind source name before ∧ EditsBehind source name newName before e) ∧
      ∀ t ∈ out, SpelledAs source name t → FollowsWord source t.span.start ∨ ∃ e ∈ edits,
        (LineMap.fromSource source).byteToPosition t.span.start = .ok e.start ∧
          (LineMap.fromSource source).byteToPosition t.span.stop = .ok e.stop := by
  have hisWord := isWord_of_wordAtOffset hword hname
  obtain ⟨edits, hedits, hordered, hmem⟩ := exists_collectOccurrences hisWord hsize
  refine ⟨edits, hedits, hordered, hmem, fun t ht hspelled => ?_⟩
  by_cases hfollows : FollowsWord source t.span.start
  · exact Or.inl hfollows
  · obtain ⟨before, hstart, hstop, hstands⟩ := standsBehind_of_token hsize hlex ht hspelled hfollows
    obtain ⟨hb, hb', -⟩ := hstands.boundaries
    obtain ⟨p, q, hp, hq, -⟩ := byteToPosition_mono hsize hb hb' (Nat.le_add_right _ _)
    refine Or.inr ⟨⟨p, q, newName⟩, (hmem _).2 ⟨before, hstands, hp, hq, rfl⟩, ?_, ?_⟩
    · rw [← hstart, hp]
    · rw [← hstop, hq]

/-- A name that is used once: its definition and its use have their edits in order. -/
theorem collectOccurrences_spec_use : ∃ edits,
    collectOccurrences "x=x\n".toList "x".toList "y".toList (.fromSource "x=x\n".toList) = .ok edits ∧
      edits.Pairwise fun e e' => e.stop ≤ e'.start := by
  have hlex : lex .fullWidth .wraps ⟨"x=x\n".toList, 0⟩ = .ok [⟨.ident ['x'], ⟨0, 0, 1⟩⟩, ⟨.eq, ⟨0, 1, 2⟩⟩,
      ⟨.ident ['x'], ⟨0, 2, 3⟩⟩, ⟨.newline, ⟨0, 4, 4⟩⟩, ⟨.eof, ⟨0, 4, 4⟩⟩] := by
    rfl
  obtain ⟨edits, hedits, hordered, -⟩ := collectOccurrences_spec .fullWidth .wraps "x=x\n".toList 0 0 0 1 "x".toList
    "y".toList _ (by decide) hlex rfl rfl
  exact ⟨edits, hedits, hordered⟩

/-- In `x="x"` the text of the string is renamed too. -/
theorem rename_touches_string : ∃ out edits, lex .fullWidth .wraps ⟨"x=\"x\"\n".toList, 0⟩ = .ok out ∧
    wordAtOffset "x=\"x\"\n".toList 0 = some (0, 1) ∧
      collectOccurrences "x=\"x\"\n".toList "x".toList "y".toList (.fromSource "x=\"x\"\n".toList) = .ok edits ∧
        ∃ e ∈ edits, e.start = ⟨0, 3⟩ ∧ ∀ t ∈ out, t.kind.ident? ≠ none →
          (LineMap.fromSource "x=\"x\"\n".toList).byteToPosition t.span.start ≠ .ok e.start := by
  have hlex : lex .fullWidth .wraps ⟨"x=\"x\"\n".toList, 0⟩ = .ok [⟨.ident ['x'], ⟨0, 0, 1⟩⟩, ⟨.eq, ⟨0, 1, 2⟩⟩,
      ⟨.str ['x'] ⟨false, false⟩, ⟨0, 2, 5⟩⟩, ⟨.newline, ⟨0, 6, 6⟩⟩, ⟨.eof, ⟨0, 6, 6⟩⟩] := by
    rfl
  have hedits : collectOccurrences "x=\"x\"\n".toList "x".toList "y".toList (.fromSource "x=\"x\"\n".toList) =
      .ok [⟨⟨0, 0⟩, ⟨0, 1⟩, ['y']⟩, ⟨⟨0, 3⟩, ⟨0, 4⟩, ['y']⟩] := by
    rfl
  refine ⟨_, _, hlex, rfl, hedits, ⟨⟨0, 3⟩, ⟨0, 4⟩, ['y']⟩, by simp, rfl, ?_⟩
  intro t ht hident
  simp only [List.mem_cons, List.not_mem_nil, or_false] at ht
  rcases ht with rfl | rfl | rfl | rfl | rfl
  · intro h
    cases h
  all_goals exact absurd rfl hident

end Cobrust.Lsp
