import Cobrust.Router.Cache
import Cobrust.Store.Rows
import Cobrust.Text.CompactJson
import Mathlib.Data.String.Basic

/-!
# Cache keys

`CacheKey::compute` of `cobrust-llm-router/src/cache.rs` and the canonical texts that it hashes, by their
characters. The hash, the numbers of type `f32` and the feature `preserve_order` of `serde_json` are
parameters.

* `preimage_eq`: requests with the same canonical text, where the first has one line for each field.
* `compute_injective_iff`: when a key is that of one request only.
-/

namespace Cobrust.Router

open Cobrust.Store (sortRows)
open Text (JsonTree NumberText)

/-- The numbers of type `f32` and how `serde_json` writes those that are finite: the shortest digits that read
back as the number, with a point or an exponent. -/
structure Float32 (F : Type) where
  finite : F → Bool
  text : F → Text
  injective : ∀ x y, finite x = true → finite y = true → text x = text y → x = y
  ne_nil : ∀ x, finite x = true → text x ≠ []
  chars : ∀ x, finite x = true → ∀ c ∈ text x, Text.numberChar c = true
  ne_digits : ∀ x, finite x = true → ∃ c ∈ text x, c.isDigit = false
  /-- Infinity and what is not a number. -/
  special : ∃ x y, x ≠ y ∧ finite x = false ∧ finite y = false

variable {F : Type} (float : Float32 F)

inductive Number where
  | int (n : Nat)
  | float (x : F) (h : float.finite x = true)

def Number.text : Number float → Text
  | .int n => Nat.toDigits 10 n
  | .float x _ => float.text x

theorem Number.text_injective : Function.Injective (Number.text float) := by
  have hpoint (n : Nat) (x : F) (h : float.finite x = true) : Nat.toDigits 10 n ≠ float.text x := by
    intro heq
    obtain ⟨c, hc, hdigit⟩ := float.ne_digits x h
    rw [← heq] at hc
    exact absurd (Text.isDigit_of_mem_toDigits hc) (by rw [hdigit]; decide)
  intro a b h
  cases a with
  | int m =>
    cases b with
    | int n =>
      have := congrArg Text.parseDigits h
      rw [Number.text, Number.text, Text.parseDigits_toDigits, Text.parseDigits_toDigits] at this
      exact congrArg _ (Option.some.inj this)
    | float y hy => exact absurd h (hpoint m y hy)
  | float x hx =>
    cases b with
    | int n => exact absurd h.symm (hpoint n x hx)
    | float y hy =>
      cases float.injective x y hx hy h
      rfl

def numbers : NumberText (Number float) where
  text := Number.text float
  injective := Number.text_injective float
  ne_nil
    | .int _ => Nat.toDigits_ne_nil
    | .float x h => float.ne_nil x h
  chars
    | .int _ => fun c hc => by rw [Text.numberChar, Text.isDigit_of_mem_toDigits hc]; rfl
    | .float x h => float.chars x h

/-! ## The canonical texts -/

abbrev Json :=
  JsonTree (Number float)

/-- `serde_json::json!(v)` for a number of type `f32`: null unless it is finite. -/
def jsonFloat (x : F) : Json float :=
  if h : float.finite x = true then .number (.float x h) else .null

def jsonString (s : String) : Json float :=
  .string s.toList

def jsonObject (rows : List (String × Json float)) : Json float :=
  .object (rows.map fun row => (row.1.toList, row.2))

/-- The rows of the object in the order of their insertion. -/
def paramRows (p : SamplingParams F) : List (String × Json float) :=
  (p.max_tokens.toList.map fun v => ("max_tokens", .number (.int v.toNat))) ++
    ((p.temperature.toList.map fun v => ("temperature", jsonFloat float v)) ++
      ((p.top_p.toList.map fun v => ("top_p", jsonFloat float v)) ++
        if p.stop ≠ [] then [("stop", .array (p.stop.map (jsonString float)))] else []))

def canonicalParams (p : SamplingParams F) : Text :=
  (jsonObject float (sortRows (paramRows float p))).text (numbers float)

def Role.text : Role → String
  | .System => "system"
  | .User => "user"
  | .Assistant => "assistant"

/-- An object of `json!`, in the order of its rows or of its keys. -/
def messageJson (preserve_order : Bool) (m : Message) : Json float :=
  let rows := [("role", jsonString float m.role.text), ("content", jsonString float m.content)]
  jsonObject float (if preserve_order then rows else sortRows rows)

def canonicalMessages (preserve_order : Bool) (msgs : List Message) : Text :=
  (JsonTree.array (msgs.map (messageJson float preserve_order))).text (numbers float)

def preimage (preserve_order : Bool) (provider_key : String) (req : CompletionRequest F) : Text :=
  "cobrust-llm-router/v1\n".toList ++ (provider_key.toList ++ '\n' :: (req.model.toList ++ '\n' ::
    (canonicalParams float req.params ++ '\n' :: canonicalMessages float preserve_order req.messages)))

def CacheKey.compute (hash : Text → String) (preserve_order : Bool) (provider_key : String) (req : CompletionRequest F) :
    String :=
  hash (preimage float preserve_order provider_key req)

/-! ## What the texts determine -/

variable {float}

theorem jsonString_injective : Function.Injective (jsonString float) := by
  intro s t h
  exact String.toList_inj.1 (JsonTree.string.inj h)

theorem jsonObject_injective : Function.Injective (jsonObject float) := by
  intro rows rows' h
  refine List.map_injective_iff.2 ?_ (JsonTree.object.inj h)
  intro a b hab
  have hfst := congrArg Prod.fst hab
  have hsnd := congrArg Prod.snd hab
  exact Prod.ext (String.toList_inj.1 hfst) hsnd

theorem Role.text_injective {r r' : Role} (h : r.text = r'.text) : r = r' := by
  revert h
  cases r <;> cases r' <;> decide

theorem messageJson_injective (preserve_order : Bool) : Function.Injective (messageJson float preserve_order) := by
  intro m m' h
  have hrows := jsonObject_injective h
  have hlookup (k : String) : [("role", jsonString float m.role.text), ("content", jsonString float m.content)].lookup k =
      [("role", jsonString float m'.role.text), ("content", jsonString float m'.content)].lookup k := by
    have := congrArg (List.lookup k) hrows
    cases preserve_order with
    | true => exact this
    | false =>
      rw [if_neg Bool.false_ne_true, if_neg Bool.false_ne_true] at this
      rwa [Store.lookup_sortRows, Store.lookup_sortRows] at this
  have hrole := jsonString_injective (Option.some.inj (hlookup "role"))
  have hcontent := jsonString_injective (Option.some.inj (hlookup "content"))
  cases m with
  | mk role content =>
    cases m' with
    | mk role' content' =>
      cases hcontent
      cases Role.text_injective hrole
      rfl

theorem canonicalMessages_injective (preserve_order : Bool) :
    Function.Injective (canonicalMessages float preserve_order) := by
  intro msgs msgs' h
  exact List.map_injective_iff.2 (messageJson_injective preserve_order) (JsonTree.array.inj (JsonTree.text_injective h))

theorem lookup_optional {α : Type} (o : Option α) (k k' : String) (g : α → Json float) :
    (o.toList.map fun v => (k, g v)).lookup k' = if k' = k then o.map g else none := by
  cases o with
  | none =>
    rw [Option.toList_none, List.map_nil, List.lookup_nil, Option.map_none, ite_self]
  | some v =>
    rw [Option.toList_some, List.map_singleton, Store.lookup_row]
    rfl

/-- The number is finite, if there is one. -/
def FiniteFloat (float : Float32 F) (o : Option F) : Prop :=
  ∀ x ∈ o, float.finite x = true

theorem jsonFloat_eq {o o' : Option F} (ho : FiniteFloat float o) (h : o.map (jsonFloat float) = o'.map (jsonFloat float)) :
    o = o' := by
  cases o with
  | none =>
    cases o' with
    | none => rfl
    | some y => cases h
  | some x =>
    cases o' with
    | none => cases h
    | some y =>
      have heq := Option.some.inj h
      rw [jsonFloat, dif_pos (ho x rfl), jsonFloat] at heq
      split_ifs at heq
      cases heq
      rfl

structure FiniteParams (float : Float32 F) (p : SamplingParams F) : Prop where
  temperature : FiniteFloat float p.temperature
  top_p : FiniteFloat float p.top_p

theorem canonicalParams_eq {p p' : SamplingParams F} (hp : FiniteParams float p)
    (h : canonicalParams float p = canonicalParams float p') : p = p' := by
  have hrows := jsonObject_injective (JsonTree.text_injective h)
  have hlookup (k : String) : (paramRows float p).lookup k = (paramRows float p').lookup k := by
    rw [← Store.lookup_sortRows, hrows, Store.lookup_sortRows]
  have hstop (stop : List String) (k : String) : (if stop ≠ [] then
      [("stop", (.array (stop.map (jsonString float)) : Json float))] else []).lookup k =
      if k = "stop" ∧ stop ≠ [] then some (.array (stop.map (jsonString float))) else none := by
    by_cases hnil : stop = []
    · rw [if_neg (not_not.2 hnil), if_neg fun h => h.2 hnil]
      rfl
    · rw [if_pos hnil, Store.lookup_row]
      by_cases hk : k = "stop"
      · rw [if_pos hk, if_pos ⟨hk, hnil⟩]
      · rw [if_neg hk, if_neg fun h => hk h.1]
        rfl
  have hget (p : SamplingParams F) (k : String) : (paramRows float p).lookup k =
      (if k = "max_tokens" then p.max_tokens.map fun v => .number (.int v.toNat) else none).or
        ((if k = "temperature" then p.temperature.map (jsonFloat float) else none).or
          ((if k = "top_p" then p.top_p.map (jsonFloat float) else none).or
            (if k = "stop" ∧ p.stop ≠ [] then some (.array (p.stop.map (jsonString float))) else none))) := by
    rw [paramRows, List.lookup_append, List.lookup_append, List.lookup_append, lookup_optional, lookup_optional,
      lookup_optional, hstop]
  have hmax : p.max_tokens.map (fun v => (JsonTree.number (.int v.toNat) : Json float)) =
      p'.max_tokens.map fun v => .number (.int v.toNat) := by
    simpa [hget] using hlookup "max_tokens"
  have htemperature : p.temperature.map (jsonFloat float) = p'.temperature.map (jsonFloat float) := by
    simpa [hget] using hlookup "temperature"
  have htop : p.top_p.map (jsonFloat float) = p'.top_p.map (jsonFloat float) := by
    simpa [hget] using hlookup "top_p"
  have hstops : (if p.stop ≠ [] then some (JsonTree.array (p.stop.map (jsonString float))) else none) =
      if p'.stop ≠ [] then some (JsonTree.array (p'.stop.map (jsonString float))) else none := by
    simpa [hget] using hlookup "stop"
  have hmax : p.max_tokens = p'.max_tokens := by
    refine Option.map_injective (fun v v' hv => ?_) hmax
    exact BitVec.eq_of_toNat_eq (Number.int.inj (JsonTree.number.inj hv))
  have hstop : p.stop = p'.stop := by
    split_ifs at hstops with hp hp' hp'
    · exact List.map_injective_iff.2 jsonString_injective (JsonTree.array.inj (Option.some.inj hstops))
    · rw [not_not.1 hp, not_not.1 hp']
  cases p with
  | mk max_tokens temperature top_p stop =>
    cases p' with
    | mk max_tokens' temperature' top_p' stop' =>
      cases hmax
      cases jsonFloat_eq hp.temperature htemperature
      cases jsonFloat_eq hp.top_p htop
      cases hstop
      rfl

/-! ## The key -/

variable {provider_key provider_key' : String} {req req' : CompletionRequest F} {preserve_order : Bool}

/-- The provider key and the model are one line each. -/
structure OneLine (provider_key : String) (req : CompletionRequest F) : Prop where
  provider_key : '\n' ∉ provider_key.toList
  model : '\n' ∉ req.model.toList

theorem newline_not_mem_canonicalParams (p : SamplingParams F) : '\n' ∉ canonicalParams float p :=
  JsonTree.newline_not_mem_text _

theorem newline_not_mem_canonicalMessages (msgs : List Message) :
    '\n' ∉ canonicalMessages float preserve_order msgs :=
  JsonTree.newline_not_mem_text _

theorem cut_eq {a b x y : Text} (ha : '\n' ∉ a) (hb : '\n' ∉ b) (h : a ++ '\n' :: x = b ++ '\n' :: y) : a = b ∧ x = y := by
  have hcut := congrArg (Text.splitOnce '\n') h
  rw [Text.splitOnce_append ha, Text.splitOnce_append hb] at hcut
  exact Prod.mk.inj (Option.some.inj hcut)

theorem preimage_eq (hline : OneLine provider_key req) (hparams : FiniteParams float req.params)
    (h : preimage float preserve_order provider_key req = preimage float preserve_order provider_key' req') :
    provider_key = provider_key' ∧ req = req' := by
  have h := List.append_cancel_left h
  have hcount := congrArg (List.count '\n') h
  have hnone {a : Text} (ha : '\n' ∉ a) : a.count '\n' = 0 := List.count_eq_zero.2 ha
  simp only [List.count_append, List.count_cons_self, hnone hline.provider_key, hnone hline.model,
    hnone (newline_not_mem_canonicalParams _), hnone (newline_not_mem_canonicalMessages _)] at hcount
  have hline' : OneLine provider_key' req' :=
    ⟨List.count_eq_zero.1 (by omega), List.count_eq_zero.1 (by omega)⟩
  obtain ⟨hprovider, h⟩ := cut_eq hline.provider_key hline'.provider_key h
  obtain ⟨hmodel, h⟩ := cut_eq hline.model hline'.model h
  obtain ⟨hcanonical, h⟩ := cut_eq (newline_not_mem_canonicalParams _) (newline_not_mem_canonicalParams _) h
  refine ⟨String.toList_inj.1 hprovider, ?_⟩
  cases req with
  | mk model messages params =>
    cases req' with
    | mk model' messages' params' =>
      cases String.toList_inj.1 hmodel
      cases canonicalParams_eq hparams hcanonical
      cases canonicalMessages_injective preserve_order h
      rfl

/-- The line end of a provider key that has one can be taken for the end of the key. -/
theorem preimage_shift_provider {a b : Text} (h : provider_key.toList = a ++ '\n' :: b) :
    preimage float preserve_order provider_key req = preimage float preserve_order (String.ofList a)
      { req with model := String.ofList (b ++ '\n' :: req.model.toList) } := by
  unfold preimage
  generalize "cobrust-llm-router/v1\n".toList = tag
  simp [h]

theorem preimage_shift_model {a b : Text} (h : req.model.toList = a ++ '\n' :: b) :
    preimage float preserve_order provider_key req = preimage float preserve_order
      (String.ofList (provider_key.toList ++ '\n' :: a)) { req with model := String.ofList b } := by
  unfold preimage
  generalize "cobrust-llm-router/v1\n".toList = tag
  simp [h]

theorem preimage_congr_params {params : SamplingParams F}
    (h : canonicalParams float req.params = canonicalParams float params) :
    preimage float preserve_order provider_key req = preimage float preserve_order provider_key { req with params } := by
  unfold preimage
  rw [h]

theorem exists_other_special (float : Float32 F) (x : F) : ∃ y, y ≠ x ∧ float.finite y = false := by
  obtain ⟨u, v, huv, hu, hv⟩ := float.special
  by_cases h : u = x
  · exact ⟨v, fun hvx => huv (h.trans hvx.symm), hv⟩
  · exact ⟨u, h, hu⟩

theorem jsonFloat_special {x y : F} (hx : float.finite x = false) (hy : float.finite y = false) :
    jsonFloat float x = jsonFloat float y := by
  rw [jsonFloat, jsonFloat, dif_neg (by rw [hx]; decide), dif_neg (by rw [hy]; decide)]

theorem canonicalParams_temperature {p : SamplingParams F} {x y : F} (hp : p.temperature = some x)
    (hx : float.finite x = false) (hy : float.finite y = false) :
    canonicalParams float p = canonicalParams float { p with temperature := some y } := by
  rw [canonicalParams, canonicalParams, paramRows, paramRows, hp]
  dsimp only
  rw [Option.toList_some, Option.toList_some, List.map_singleton, List.map_singleton, jsonFloat_special hx hy]

theorem canonicalParams_top_p {p : SamplingParams F} {x y : F} (hp : p.top_p = some x)
    (hx : float.finite x = false) (hy : float.finite y = false) :
    canonicalParams float p = canonicalParams float { p with top_p := some y } := by
  rw [canonicalParams, canonicalParams, paramRows, paramRows, hp]
  dsimp only
  rw [Option.toList_some, Option.toList_some, List.map_singleton, List.map_singleton, jsonFloat_special hx hy]

/-- With a hash without collisions, the key of a request is that of no other exactly if its provider key and its
model have no line end and its numbers are finite. -/
theorem compute_injective_iff (float : Float32 F) (hash : Text → String) (preserve_order : Bool)
    (hhash : Function.Injective hash) (provider_key : String) (req : CompletionRequest F) :
    (∀ (provider_key' : String) (req' : CompletionRequest F),
      CacheKey.compute float hash preserve_order provider_key req =
        CacheKey.compute float hash preserve_order provider_key' req' →
        provider_key = provider_key' ∧ req = req') ↔
      OneLine provider_key req ∧ FiniteParams float req.params := by
  constructor
  · intro h
    have hsame (provider_key' : String) (req' : CompletionRequest F)
        (heq : preimage float preserve_order provider_key req = preimage float preserve_order provider_key' req') :
        provider_key = provider_key' ∧ req = req' := h provider_key' req' (congrArg hash heq)
    refine ⟨⟨fun hmem => ?_, fun hmem => ?_⟩, ⟨fun x hx => ?_, fun x hx => ?_⟩⟩
    · obtain ⟨a, b, hab⟩ := List.append_of_mem hmem
      have heq := congrArg String.toList (hsame _ _ (preimage_shift_provider hab)).1
      rw [hab, String.toList_ofList] at heq
      exact absurd (congrArg List.length heq) (by simp)
    · obtain ⟨a, b, hab⟩ := List.append_of_mem hmem
      have heq := congrArg String.toList (hsame _ _ (preimage_shift_model hab)).1
      rw [String.toList_ofList] at heq
      exact absurd (congrArg List.length heq) (by simp)
    · by_contra hfinite
      have hfinite := Bool.eq_false_iff.2 hfinite
      obtain ⟨y, hne, hy⟩ := exists_other_special float x
      have heq := hsame provider_key { req with params := { req.params with temperature := some y } }
        (preimage_congr_params (canonicalParams_temperature hx hfinite hy))
      have htemperature := congrArg (fun r => r.params.temperature) heq.2
      rw [Option.mem_def.1 hx] at htemperature
      exact hne (Option.some.inj htemperature).symm
    · by_contra hfinite
      have hfinite := Bool.eq_false_iff.2 hfinite
      obtain ⟨y, hne, hy⟩ := exists_other_special float x
      have heq := hsame provider_key { req with params := { req.params with top_p := some y } }
        (preimage_congr_params (canonicalParams_top_p hx hfinite hy))
      have htop := congrArg (fun r => r.params.top_p) heq.2
      rw [Option.mem_def.1 hx] at htop
      exact hne (Option.some.inj htop).symm
  · intro ⟨hline, hparams⟩ provider_key' req' heq
    exact preimage_eq hline hparams (hhash heq)

/-- Some numbers of type `f32`. -/
inductive SampleFloat where
  | half
  | infinity
  | nan
  deriving DecidableEq

def sampleFloat : Float32 SampleFloat where
  finite x := x = .half
  text _ := "0.5".toList
  injective := by
    intro x y hx hy _
    rw [of_decide_eq_true hx, of_decide_eq_true hy]
  ne_nil := by
    intro _ _
    decide
  chars := by
    intro _ _ c hc
    exact (List.all_eq_true.1 (by decide : "0.5".toList.all Text.numberChar = true)) c hc
  ne_digits := fun _ _ => ⟨'.', by decide, by decide⟩
  special := ⟨.infinity, .nan, by decide, by decide, by decide⟩

theorem compute_injective_iff_half :
    CacheKey.compute sampleFloat String.ofList true "openai" ⟨"m", [⟨.User, "hi\n"⟩], ⟨some 5, some .half, none, ["\n"]⟩⟩ ≠
      CacheKey.compute sampleFloat String.ofList true "other" ⟨"m", [⟨.User, "hi\n"⟩], ⟨some 5, none, none, ["\n"]⟩⟩ := by
  refine fun heq => absurd ((compute_injective_iff sampleFloat String.ofList true
    (fun a b h => String.ofList_injective h) "openai" _).2
      ⟨⟨by decide, by decide⟩, ⟨fun x hx => ?_, fun x hx => by cases hx⟩⟩ _ _ heq).1 (by decide)
  cases hx
  rfl

/-- The line end in a provider key moves to the model. -/
theorem compute_collision :
    CacheKey.compute sampleFloat String.ofList true "a\nb" ⟨"m", [], ⟨none, none, none, []⟩⟩ =
      CacheKey.compute sampleFloat String.ofList true "a" ⟨"b\nm", [], ⟨none, none, none, []⟩⟩ ∧
    ("a\nb" : String) ≠ "a" := by
  refine ⟨?_, by decide⟩
  rw [CacheKey.compute, CacheKey.compute]
  congr 1

end Cobrust.Router
