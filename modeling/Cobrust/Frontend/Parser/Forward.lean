import Cobrust.Frontend.Parser.Cursor

/-!
# Moving forward

What the functions of the cursor do to the position, for a token list that ends with `Eof`.
-/

namespace Cobrust.Frontend.Parser

open Control

/-- A token list that ends with `Eof`. -/
def EndsInEof (toks : List Token) : Prop :=
  toks.getLast?.map Token.kind = some .eof

/-- The cursor has only moved forward in `toks`, and not past the first `Eof`. -/
structure Forward (toks : List Token) (p : Parser) : Prop where
  toks_eq : p.toks = toks
  pos_le : p.pos ≤ eofIndex toks
  moves : ∀ m ∈ p.moves, m.Forward

/-- The runs of a parser over `toks`: they do not run out of levels, and read no token that is not
there. -/
def reading (toks : List Token) : Reading Parser ParseHalt where
  Good := Forward toks
  left p := eofIndex toks - p.pos
  Allowed e := e ≠ .fuel ∧ e ≠ .panic

/-- The kind of the token at the cursor. -/
def kind? (p : Parser) : Option TokenKind :=
  (p.tokenAt 0).map Token.kind

/-- There is a token to read. -/
def NotEof (p : Parser) : Prop :=
  p.kind? ≠ some .eof

variable {toks : List Token} {α β γ : Type} {P : Parser → Prop} {Q : α → Prop} {r : Nat}

theorem eofIndex_lt (h : EndsInEof toks) : eofIndex toks < toks.length := by
  unfold EndsInEof at h
  obtain ⟨t, ht, hkind⟩ := Option.map_eq_some_iff.mp h
  exact List.findIdx_lt_length_of_exists ⟨t, List.mem_of_getLast? ht, by simpa using hkind⟩

theorem exists_tokenAt (h : EndsInEof toks) {p : Parser} (hp : Forward toks p) (off : Nat) :
    ∃ t, p.tokenAt off = some t := by
  have hlen := eofIndex_lt h
  unfold tokenAt
  rw [hp.toks_eq]
  exact ⟨_, List.getElem?_eq_getElem (by omega)⟩

/-- The cursor is before the first `Eof` where it is at another kind. -/
theorem pos_lt_of_notEof (h : EndsInEof toks) {p : Parser} (hp : Forward toks p) (hne : p.NotEof) :
    p.pos < eofIndex toks := by
  have hlen := eofIndex_lt h
  refine Nat.lt_of_le_of_ne hp.pos_le fun heq => hne ?_
  have hkind : toks[eofIndex toks].kind = .eof := of_decide_eq_true (List.findIdx_getElem (w := hlen))
  unfold kind? tokenAt
  rw [hp.toks_eq, heq, Nat.add_zero, Nat.min_eq_left (by omega), List.getElem?_eq_getElem hlen]
  exact congrArg some hkind

/-! ## Looking -/

theorem reads_fail {e : ParseError} : Reads (reading toks) P r Q (fail e : ParserM α) :=
  Reads.throw ⟨nofun, nofun⟩

theorem reads_failText {message : String} {span : Span} {suggestion : Option String} :
    Reads (reading toks) P r Q (failText message span suggestion : ParserM α) :=
  reads_fail

theorem reads_any {m : ParserM α} (h : Reads (reading toks) (fun _ => True) r Q m) :
    Reads (reading toks) P r Q m :=
  h.mono (fun _ _ => trivial) (Nat.le_refl r) fun _ h => h

theorem reads_seen {k : TokenKind} {m : ParserM α} (hk : k ≠ .eof) (h : Reads (reading toks) NotEof r Q m) :
    Reads (reading toks) (fun p => P p ∧ p.kind? = some k) r Q m := by
  refine h.mono (fun p hp => ?_) (Nat.le_refl r) fun _ h => h
  rw [NotEof, hp.2]
  exact fun heq => hk (Option.some.inj heq)

section Looking

variable (hends : EndsInEof toks)
include hends

theorem peekToken_ok {p : Parser} (hp : Forward toks p) (off : Nat) :
    ∃ t, p.tokenAt off = some t ∧ peekToken off p = .ok t p := by
  obtain ⟨t, ht⟩ := exists_tokenAt hends hp off
  exact ⟨t, ht, by rw [peekToken, ht]⟩

theorem peekAt_ok {p : Parser} (hp : Forward toks p) (off : Nat) :
    ∃ t, p.tokenAt off = some t ∧ Parser.peekAt off p = .ok t.kind p := by
  obtain ⟨t, ht, hpeek⟩ := peekToken_ok hends hp off
  exact ⟨t, ht, bind_of_ok hpeek⟩

theorem peekKind_ok {p : Parser} (hp : Forward toks p) :
    ∃ t, p.tokenAt 0 = some t ∧ Parser.peekKind p = .ok t.kind p :=
  peekAt_ok hends hp 0

theorem reads_peekMem {f : Token → ParserM α}
    (h : ∀ t ∈ toks, Reads (reading toks) (fun p => P p ∧ p.kind? = some t.kind) r Q (f t)) :
    Reads (reading toks) P r Q (Parser.peek >>= f) := by
  refine Reads.look (S := fun t p => t ∈ toks ∧ p.kind? = some t.kind) (fun p hp => ?_) fun t => ?_
  · obtain ⟨t, ht, hpeek⟩ := peekToken_ok hends hp 0
    refine ⟨t, hpeek, ?_, by rw [kind?, ht]; rfl⟩
    rw [← hp.toks_eq]
    exact List.mem_of_getElem? ht
  · exact fun p hp hS hr => h t hS.2.1 p hp ⟨hS.1, hS.2.2⟩ hr

theorem reads_peek {f : Token → ParserM α}
    (h : ∀ t, Reads (reading toks) (fun p => P p ∧ p.kind? = some t.kind) r Q (f t)) :
    Reads (reading toks) P r Q (Parser.peek >>= f) :=
  reads_peekMem hends fun t _ => h t

theorem reads_peekKind {f : TokenKind → ParserM α}
    (h : ∀ k, Reads (reading toks) (fun p => P p ∧ p.kind? = some k) r Q (f k)) :
    Reads (reading toks) P r Q (Parser.peekKind >>= f) := by
  refine Reads.look (S := fun k p => p.kind? = some k) (fun p hp => ?_) h
  obtain ⟨t, ht, hpeek⟩ := peekKind_ok hends hp
  exact ⟨t.kind, hpeek, by rw [kind?, ht]; rfl⟩

theorem reads_peekAt {f : TokenKind → ParserM α} {off : Nat} (h : ∀ k, Reads (reading toks) P r Q (f k)) :
    Reads (reading toks) P r Q (Parser.peekAt off >>= f) := by
  refine Reads.look (S := fun _ _ => True) (fun p hp => ?_) fun a => (h a).mono
    (fun _ hp => hp.1) (Nat.le_refl r) fun _ h => h
  obtain ⟨t, _, hpeek⟩ := peekAt_ok hends hp off
  exact ⟨t.kind, hpeek, trivial⟩

theorem reads_currentSpan {f : Span → ParserM α} (h : ∀ span, Reads (reading toks) P r Q (f span)) :
    Reads (reading toks) P r Q (Parser.currentSpan >>= f) := by
  refine Reads.look (S := fun _ _ => True) (fun p hp => ?_) fun a => (h a).mono
    (fun _ hp => hp.1) (Nat.le_refl r) fun _ h => h
  obtain ⟨t, _, hpeek⟩ := peekToken_ok hends hp 0
  exact ⟨t.span, bind_of_ok hpeek, trivial⟩

theorem reads_ifAt {k : TokenKind} {m m' : ParserM α} (hk : k ≠ .eof) (h : Reads (reading toks) NotEof r Q m)
    (h' : Reads (reading toks) P r Q m') :
    Reads (reading toks) P r Q (Parser.peekKind >>= fun x => if x = k then m else m') := by
  refine reads_peekKind hends fun x => Reads.ite (fun hx => reads_seen (hx ▸ hk) h) fun _ => ?_
  exact h'.mono (fun _ hp => hp.1) (Nat.le_refl r) fun _ h => h

/-! ## Reading a token -/

omit hends in
theorem forward_step {p : Parser} (hp : Forward toks p) (hlt : p.pos < eofIndex toks) : Forward toks p.step where
  toks_eq := hp.toks_eq
  pos_le := hlt
  moves := by
    refine List.forall_mem_cons.mpr ⟨⟨Nat.le_succ _, ?_, fun h => nomatch h⟩, hp.moves⟩
    rw [hp.toks_eq]
    exact hlt

/-- The token at the cursor is read where it is not the last one. -/
theorem bump_ok {p : Parser} (hp : Forward toks p) (hlt : p.pos < eofIndex toks) :
    ∃ t, p.tokenAt 0 = some t ∧ Parser.bump p = .ok t p.step := by
  have hlen := eofIndex_lt hends
  obtain ⟨t, ht, hpeek⟩ := peekToken_ok hends hp 0
  have hin : p.pos < p.toks.length - 1 := by
    rw [hp.toks_eq]
    omega
  refine ⟨t, ht, (bind_of_ok hpeek).trans ?_⟩
  show EStateM.Result.ok t (if p.pos < p.toks.length - 1 then p.step else p) = _
  rw [if_pos hin]

theorem reads_bump : Reads (reading toks) NotEof r (fun _ => True) Parser.bump := by
  intro p hp hne _
  have hlt := pos_lt_of_notEof hends hp hne
  obtain ⟨t, _, hbump⟩ := bump_ok hends hp hlt
  rw [hbump]
  have hless : eofIndex toks - (p.pos + 1) < eofIndex toks - p.pos := by omega
  exact ⟨forward_step hp hlt, Nat.le_of_lt hless, fun _ => hless⟩

theorem reads_bumpBind {f : Token → ParserM α} (h : ∀ t r', r' < r → Fed (reading toks) r' (f t)) :
    Reads (reading toks) NotEof r Q (Parser.bump >>= f) :=
  (reads_bump hends).first h

theorem reads_atKind {k : TokenKind} {f : Bool → ParserM α} (hk : k ≠ .eof)
    (h : Reads (reading toks) NotEof r Q (f true)) (h' : Reads (reading toks) P r Q (f false)) :
    Reads (reading toks) P r Q (atKind k >>= f) := by
  refine Reads.look (S := fun b p => b = true → p.kind? = some k) (fun p hp => ?_) fun b => ?_
  · obtain ⟨t, ht, hpeek⟩ := peekToken_ok hends hp 0
    refine ⟨decide (t.kind = k), ?_, fun hb => ?_⟩
    · exact bind_of_ok (bind_of_ok hpeek)
    · rw [kind?, ht, ← of_decide_eq_true hb]
      rfl
  · cases b with
    | true =>
      refine h.mono (fun p hp => ?_) (Nat.le_refl r) fun _ h => h
      rw [NotEof, hp.2 rfl]
      exact fun heq => hk (Option.some.inj heq)
    | false => exact h'.mono (fun _ hp => hp.1) (Nat.le_refl r) fun _ h => h

theorem reads_eat {k : TokenKind} (hk : k ≠ .eof) :
    Reads (reading toks) (fun _ => True) r (fun b => b = true) (eat k) := by
  refine reads_atKind hends hk ?_ ?_
  · exact reads_bumpBind hends fun _ _ _ => .pure
  · exact .pure Bool.false_ne_true

theorem reads_ifEat {k : TokenKind} {m m' : ParserM α} (hk : k ≠ .eof)
    (h : ∀ r' < r, Fed (reading toks) r' m) (h' : Reads (reading toks) (fun _ => True) r Q m') :
    Reads (reading toks) P r Q (eat k >>= fun b => if b = true then m else m') := by
  refine reads_any ((reads_eat hends hk).bind (fun b r' hb hr => ?_) fun b hb => ?_)
  · rw [if_pos hb]
    exact h r' hr
  · rw [if_neg hb]
    exact h'

theorem eats_expect {k : TokenKind} (hk : k ≠ .eof) : Eats (reading toks) r (expect k) := by
  refine reads_atKind hends hk (reads_bump hends) ?_
  exact reads_peek hends fun _ => reads_fail

theorem fed_optionally {k : TokenKind} {m : ParserM α} (hk : k ≠ .eof)
    (h : ∀ r' < r, Fed (reading toks) r' m) : Fed (reading toks) r (optionally k m) :=
  reads_ifEat hends hk (fun r' hr => (h r' hr).andThen fun _ => .pure id) (.pure id)

theorem eats_expectIdent : Eats (reading toks) r expectIdent := by
  refine reads_peek hends fun t => ?_
  split
  · next hk => exact reads_seen (hk ▸ nofun) (reads_bumpBind hends fun _ _ _ => .pure)
  · next hk => exact reads_seen (hk ▸ nofun) (reads_bumpBind hends fun _ _ _ => .pure)
  · exact reads_fail

theorem fed_expectEos : Fed (reading toks) r expectEos := by
  refine reads_peek hends fun t => ?_
  split
  · next hk => exact reads_seen (hk ▸ nofun) (reads_bumpBind hends fun _ _ _ => .pure)
  · next hk => exact reads_seen (hk ▸ nofun) (reads_bumpBind hends fun _ _ _ => .pure)
  · exact .pure id
  · exact reads_failText

theorem reads_deeper {m : ParserM α} (h : Reads (reading toks) (fun _ => True) r Q m) :
    Reads (reading toks) P r Q (deeper m) := by
  have hcheck : Fed (reading toks) r checkExprDepth := by
    intro p hp _ hr
    unfold checkExprDepth
    split
    · exact reads_currentSpan hends (P := fun _ => True) (fun _ => reads_fail) p hp trivial hr
    · exact ⟨hp, Nat.le_refl _, False.elim⟩
  refine (reads_any hcheck).andThen fun _ => h.between ?_ ?_
  · exact fun p hp => ⟨⟨hp.toks_eq, hp.pos_le, hp.moves⟩, rfl⟩
  · exact fun p hp => ⟨⟨hp.toks_eq, hp.pos_le, hp.moves⟩, rfl⟩

variable {d : Descent}

omit hends in
theorem fed_turns {body : β → ParserM (Turn β γ)} {b : β} (hr : r ≤ d.fuel)
    (h : ∀ b, Reads (reading toks) (fun _ => True) r Turn.GoesOn (body b)) :
    Fed (reading toks) r (turns d body b) := by
  refine Fed.loop h (fun p p' hp hp' hlt => ⟨⟨hp'.toks_eq, hp'.pos_le, ?_⟩, rfl⟩) (Nat.lt_succ_of_le hr)
  have hless : p.pos < p'.pos := by
    have h : eofIndex toks - p'.pos < eofIndex toks - p.pos := hlt
    omega
  refine List.forall_mem_cons.mpr ⟨⟨Nat.le_of_lt hless, ?_, fun _ => hless⟩, hp'.moves⟩
  rw [hp'.toks_eq]
  exact hp'.pos_le

theorem fed_skipNewlines (hr : r ≤ d.fuel) : Fed (reading toks) r (skipNewlines d) := by
  refine fed_turns hr fun _ => reads_ifAt hends nofun ?_ (.pure id)
  intro p hp hne _
  have hlt := pos_lt_of_notEof hends hp hne
  have hless : eofIndex toks - (p.pos + 1) < eofIndex toks - p.pos := by omega
  exact ⟨forward_step hp hlt, Nat.le_of_lt hless, fun _ => hless⟩

theorem fed_whileEat {k : TokenKind} {m : ParserM α} {acc : List α} (hk : k ≠ .eof) (hr : r ≤ d.fuel)
    (h : ∀ r' < r, Fed (reading toks) r' m) : Fed (reading toks) r (whileEat d k m acc) :=
  fed_turns hr fun _ => reads_ifEat hends hk (fun r' hr => (h r' hr).andThen fun _ => .pure id) (.pure id)

theorem fed_commaItems {close : TokenKind} {m : ParserM α} {acc : List α} (hclose : close ≠ .eof)
    (hr : r ≤ d.fuel) (h : ∀ r' < r, Fed (reading toks) r' m) :
    Fed (reading toks) r (commaItems d close m acc) := by
  refine fed_turns hr fun _ => reads_ifEat hends nofun (fun r' hr => ?_) (.pure id)
  exact reads_ifAt hends hclose (.pure id) ((h r' hr).andThen fun _ => .pure id)

theorem eats_parseDottedName (hr : r ≤ d.fuel) : Eats (reading toks) r (parseDottedName d) :=
  (eats_expectIdent hends).first fun _ _ hlt =>
    fed_whileEat hends nofun (Nat.le_trans (Nat.le_of_lt hlt) hr) fun _ _ => (eats_expectIdent hends).fed

end Looking

end Cobrust.Frontend.Parser
