import Cobrust.Lsp.LineMap

/-!
# Deltas of semantic tokens

`build_semantic_tokens_delta` of `cobrust-lsp/src/semantic_tokens.rs`: the one edit that replaces what is between the
common prefix and the common suffix of two token streams. A token is five numbers of the data that an edit counts in.

* `applyEdits_tokenEdits`: the edits turn the previous data into the new data, where their numbers fit 32 bits.
-/

namespace Cobrust.Lsp

section Common

variable {α : Type} [DecidableEq α]

def commonPrefix : List α → List α → Nat
  | a :: as, b :: bs => if a = b then commonPrefix as bs + 1 else 0
  | _, _ => 0

def commonSuffix (a b : List α) : Nat :=
  commonPrefix a.reverse b.reverse

theorem exists_commonPrefix (a b : List α) :
    ∃ front x y, a = front ++ x ∧ b = front ++ y ∧ commonPrefix a b = front.length := by
  induction a generalizing b with
  | nil => exact ⟨[], [], b, rfl, rfl, by cases b <;> rfl⟩
  | cons c as ih =>
    cases b with
    | nil => exact ⟨[], c :: as, [], rfl, rfl, rfl⟩
    | cons d bs =>
      by_cases h : c = d
      · subst h
        obtain ⟨front, x, y, rfl, rfl, hlen⟩ := ih bs
        exact ⟨c :: front, x, y, rfl, rfl, by rw [commonPrefix, if_pos rfl, hlen, List.length_cons]⟩
      · exact ⟨[], c :: as, d :: bs, rfl, rfl, by rw [commonPrefix, if_neg h]; rfl⟩

theorem exists_commonSuffix (a b : List α) :
    ∃ back x y, a = x ++ back ∧ b = y ++ back ∧ commonSuffix a b = back.length := by
  obtain ⟨front, x, y, ha, hb, hlen⟩ := exists_commonPrefix a.reverse b.reverse
  refine ⟨front.reverse, x.reverse, y.reverse, ?_, ?_, by rw [commonSuffix, hlen, List.length_reverse]⟩
  · rw [← List.reverse_append, ← ha, List.reverse_reverse]
  · rw [← List.reverse_append, ← hb, List.reverse_reverse]

/-- What is in front of both, what the first and the second have between, and what is behind both. -/
theorem exists_split (a b : List α) :
    ∃ front x y back, a = front ++ (x ++ back) ∧ b = front ++ (y ++ back) ∧ commonPrefix a b = front.length ∧
      commonSuffix (a.drop (commonPrefix a b)) (b.drop (commonPrefix a b)) = back.length := by
  obtain ⟨front, x, y, rfl, rfl, hlen⟩ := exists_commonPrefix a b
  obtain ⟨back, x, y, rfl, rfl, hback⟩ := exists_commonSuffix x y
  refine ⟨front, x, y, back, rfl, rfl, hlen, ?_⟩
  rw [hlen, List.drop_left, List.drop_left, hback]

end Common

/-! ## Tokens and edits -/

structure SemanticToken where
  deltaLine : UInt32
  deltaStart : UInt32
  length : UInt32
  tokenType : UInt32
  tokenModifiersBitset : UInt32
  deriving DecidableEq

/-- The data of a response: five numbers for a token. -/
def SemanticToken.wire (t : SemanticToken) : List UInt32 :=
  [t.deltaLine, t.deltaStart, t.length, t.tokenType, t.tokenModifiersBitset]

def wire (tokens : List SemanticToken) : List UInt32 :=
  tokens.flatMap SemanticToken.wire

/-- An edit of data, its position and its length counted in numbers. -/
structure SemanticTokensEdit where
  start : Nat
  deleteCount : Nat
  data : List SemanticToken
  deriving DecidableEq

def SemanticTokensEdit.apply (e : SemanticTokensEdit) (data : List UInt32) : List UInt32 :=
  data.take e.start ++ (wire e.data ++ data.drop (e.start + e.deleteCount))

/-- Edits of the same data, from the last on. -/
def applyEdits (edits : List SemanticTokensEdit) (data : List UInt32) : List UInt32 :=
  edits.foldr SemanticTokensEdit.apply data

/-- The tokens of the previous data that are replaced. -/
def deletedTokens (prev new : List SemanticToken) : Nat :=
  let front := commonPrefix prev new
  prev.length - front - commonSuffix (prev.drop front) (new.drop front)

/-- The edits of a delta. -/
def tokenEdits (prev new : List SemanticToken) : List SemanticTokensEdit :=
  let front := commonPrefix prev new
  let back := commonSuffix (prev.drop front) (new.drop front)
  if front + back = prev.length ∧ front + back = new.length then []
  else [⟨narrow (front * 5), narrow (deletedTokens prev new * 5), (new.take (new.length - back)).drop front⟩]

inductive DeltaResult where
  | tokens (resultId : Text) (data : List SemanticToken)
  | delta (resultId : Text) (edits : List SemanticTokensEdit)
  deriving DecidableEq

/-- `build_semantic_tokens_delta`, for the tokens of the source. -/
def buildSemanticTokensDelta (new : List SemanticToken) (previousResultId : Option Text)
    (cached : Option (Text × List SemanticToken)) (newResultId : Text) : DeltaResult :=
  match previousResultId, cached with
  | some a, some (b, prev) => if a = b then .delta newResultId (tokenEdits prev new) else .tokens newResultId new
  | _, _ => .tokens newResultId new

/-- The numbers of an edit fit 32 bits. -/
def EditFits (prev new : List SemanticToken) : Prop :=
  commonPrefix prev new * 5 < 2 ^ 32 ∧ deletedTokens prev new * 5 < 2 ^ 32

/-- The numbers fit where there are less than `2 ^ 32` of the previous data. -/
theorem editFits_of_length {prev new : List SemanticToken} (h : prev.length * 5 < 2 ^ 32) : EditFits prev new := by
  obtain ⟨front, x, -, back, hprev, -, hfront, -⟩ := exists_split prev new
  have hle : front.length ≤ prev.length := by
    rw [hprev, List.length_append]
    exact Nat.le_add_right _ _
  have hdeleted : deletedTokens prev new ≤ prev.length := (Nat.sub_le _ _).trans (Nat.sub_le _ _)
  rw [EditFits, hfront]
  omega

theorem narrow_of_lt {n : Nat} (h : n < 2 ^ 32) : narrow n = n :=
  Nat.min_eq_left (Nat.le_pred_of_lt h)

theorem length_wire (tokens : List SemanticToken) : (wire tokens).length = tokens.length * 5 := by
  induction tokens with
  | nil => rfl
  | cons t tokens ih =>
    rw [wire, List.flatMap_cons, List.length_append, List.length_cons, Nat.succ_mul, ← wire, ih, Nat.add_comm]
    rfl

theorem wire_append (a b : List SemanticToken) : wire (a ++ b) = wire a ++ wire b :=
  List.flatMap_append

theorem apply_between (front x y back : List SemanticToken) :
    (SemanticTokensEdit.mk (front.length * 5) (x.length * 5) y).apply (wire (front ++ (x ++ back))) =
      wire (front ++ (y ++ back)) := by
  rw [SemanticTokensEdit.apply]
  dsimp only
  rw [wire_append, wire_append, wire_append, wire_append, ← length_wire, ← length_wire, List.take_left,
    ← List.drop_drop, List.drop_left, List.drop_left]

/-- The edits turn the previous data into the new data. -/
theorem applyEdits_tokenEdits {prev new : List SemanticToken} (h : EditFits prev new) :
    applyEdits (tokenEdits prev new) (wire prev) = wire new := by
  obtain ⟨front, x, y, back, hprev, hnew, hfront, hback⟩ := exists_split prev new
  have hdeleted : deletedTokens prev new = x.length := by
    rw [deletedTokens, hback, hfront, hprev, List.length_append, List.length_append]
    omega
  obtain ⟨hstart, hcount⟩ := h
  rw [tokenEdits, hback]
  split
  · next hsame =>
    -- Nothing stands between the prefix and the suffix.
    rw [hfront, hprev, hnew, List.length_append, List.length_append, List.length_append, List.length_append] at hsame
    have hx : x = [] := List.length_eq_zero_iff.1 (by omega)
    have hy : y = [] := List.length_eq_zero_iff.1 (by omega)
    rw [hprev, hnew, hx, hy]
    rfl
  · have hnew' : (new.take (new.length - back.length)).drop front.length = y := by
      have hlen : new.length - back.length = (front ++ y).length := by
        rw [hnew, List.length_append, List.length_append, List.length_append]
        omega
      rw [hlen, hnew, ← List.append_assoc, List.take_left, List.drop_left]
    rw [narrow_of_lt hstart, narrow_of_lt hcount, hdeleted, hfront, hnew', hprev, hnew]
    exact apply_between front x y back

theorem commonPrefix_append_self (a b : List SemanticToken) : commonPrefix a (a ++ b) = a.length := by
  induction a with
  | nil => cases b <;> rfl
  | cons c a ih => rw [List.cons_append, commonPrefix, if_pos rfl, ih, List.length_cons]

/-- A token is put in front of the last one where the position of the edit is cut by five. -/
theorem applyEdits_cut {n : Nat} (hcut : narrow ((n + 1) * 5) = n * 5) (a b : SemanticToken) :
    applyEdits (tokenEdits (List.replicate (n + 1) a) (List.replicate (n + 1) a ++ [b]))
        (wire (List.replicate (n + 1) a)) = wire (List.replicate n a ++ [b, a]) := by
  have hlen : (List.replicate (n + 1) a).length = n + 1 := List.length_replicate
  have hfront := commonPrefix_append_self (List.replicate (n + 1) a) [b]
  have hback : commonSuffix ((List.replicate (n + 1) a).drop (n + 1))
      ((List.replicate (n + 1) a ++ [b]).drop (n + 1)) = 0 := by
    rw [List.drop_eq_nil_of_le (Nat.le_of_eq hlen)]
    rfl
  have hedits : tokenEdits (List.replicate (n + 1) a) (List.replicate (n + 1) a ++ [b]) = [⟨n * 5, 0, [b]⟩] := by
    have hdeleted : deletedTokens (List.replicate (n + 1) a) (List.replicate (n + 1) a ++ [b]) = 0 := by
      rw [deletedTokens, hfront, hlen, Nat.sub_self, Nat.zero_sub]
    have hdrop : (List.replicate (n + 1) a ++ [b]).drop (n + 1) = [b] := List.drop_left' hlen
    rw [tokenEdits, hfront, hlen, hback, hdeleted, hcut, if_neg]
    · rw [Nat.sub_zero, List.take_length, hdrop]
      rfl
    · rw [List.length_append, hlen]
      exact fun h => absurd h.2 (by simp)
  have hprev : wire (List.replicate (n + 1) a) = wire (List.replicate n a) ++ wire [a] := by
    rw [← wire_append, List.replicate_succ']
  have hstart : n * 5 = (wire (List.replicate n a)).length := by
    rw [length_wire, List.length_replicate]
  rw [hedits, hprev, wire_append, applyEdits, List.foldr_cons, List.foldr_nil, SemanticTokensEdit.apply, hstart]
  dsimp only
  rw [List.take_left, Nat.add_zero, List.drop_left]
  rfl

def plainToken : SemanticToken :=
  ⟨0, 1, 1, 0, 0⟩

def otherToken : SemanticToken :=
  ⟨0, 1, 1, 1, 0⟩

/-- A token behind 858993460 others: the position of the edit is `2 ^ 32 + 4`, and is cut to `2 ^ 32 - 1`. -/
theorem long_stream_misplaced :
    applyEdits (tokenEdits (List.replicate 858993460 plainToken) (List.replicate 858993460 plainToken ++ [otherToken]))
        (wire (List.replicate 858993460 plainToken)) ≠ wire (List.replicate 858993460 plainToken ++ [otherToken]) := by
  have hnew : List.replicate (858993459 + 1) plainToken ++ [otherToken] =
      List.replicate 858993459 plainToken ++ [plainToken, otherToken] := by
    rw [List.replicate_succ', List.append_assoc]
    rfl
  intro h
  rw [show 858993460 = 858993459 + 1 from rfl, applyEdits_cut (by decide), hnew, wire_append, wire_append] at h
  exact absurd (List.append_cancel_left h) (by decide)

end Cobrust.Lsp
