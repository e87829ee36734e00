import Cobrust.Text.Stream
import Cobrust.Router.Retry
import Mathlib.Data.List.Perm.Basic

/-!
# Streamed completions

`complete_stream` of `cobrust-llm-router/src/openai.rs` and `anthropic_stream` of `cobrust-llm-router/src/anthropic.rs`,
behind the request. The parser of the payloads, which is not part of the repository, is a parameter.

* `openaiStream` and `anthropicStream`: the frames, cut out of the chunks as they come.
* `openaiComplete` and `anthropicComplete`: what a stream of payloads that all parse says.
* `ReadsWhole`: the result does not depend on the chunks, and it is what the stream says.
* `reads_whole_iff`: when it is, whatever the parser makes of the payloads.
-/

namespace Cobrust.Router

open Text (cutFrame frames fromUtf8Lossy lines replacement stripPrefix trim utf8 Marked)

/-- One streamed event. -/
inductive Chunk where
  | Delta (text : String)
  | Done (usage : TokenUsage)
  deriving DecidableEq, Repr

structure ChatChunkDelta where
  content : Option String

structure ChatChunkChoice where
  delta : Option ChatChunkDelta

structure ChatUsage where
  prompt_tokens : BitVec 32
  completion_tokens : BitVec 32

structure ChatChunk where
  choices : List ChatChunkChoice
  usage : Option ChatUsage

structure SseDelta where
  text : Option String

structure SseMessageDeltaUsage where
  input_tokens : Option (BitVec 32)
  output_tokens : BitVec 32

structure SseMessageDelta where
  usage : Option SseMessageDeltaUsage

/-- `serde_json::from_str`, at the types of the payloads, with the texts of its errors. -/
structure Payloads where
  chatChunk : Text → Except String ChatChunk
  sseDelta : Text → Except String SseDelta
  sseMessageDelta : Text → Except String SseMessageDelta

/-! ## Loops -/

/-- What a step of a loop leaves: it goes on, it breaks, or it returns an error. -/
inductive Flow (σ ε : Type) where
  | next (s : σ)
  | stop (s : σ)
  | fail (e : ε)

namespace Flow

variable {σ ε α β : Type}

def andThen : Flow σ ε → (σ → Flow σ ε) → Flow σ ε
  | .next s, f => f s
  | flow, _ => flow

def run (f : σ → α → Flow σ ε) : σ → List α → Flow σ ε
  | s, [] => .next s
  | s, a :: as => (f s a).andThen fun s => run f s as

variable {f : σ → α → Flow σ ε} {s : σ}

theorem run_append (s : σ) (as bs : List α) : run f s (as ++ bs) = (run f s as).andThen fun s => run f s bs := by
  induction as generalizing s with
  | nil => rfl
  | cons a as ih =>
    rw [List.cons_append, run, run]
    cases f s a with
    | next s => exact ih s
    | stop s => rfl
    | fail e => rfl

theorem run_flatMap (g : β → List α) (s : σ) (bs : List β) :
    run f s (bs.flatMap g) = run (fun s b => run f s (g b)) s bs := by
  induction bs generalizing s with
  | nil => rfl
  | cons b bs ih =>
    rw [List.flatMap_cons, run_append, run]
    exact congrArg _ (funext ih)

/-- A step that goes by what is made of an element, if something is. -/
theorem run_filterMap {g : α → Option β} {h : σ → β → Flow σ ε}
    (hf : ∀ s a, f s a = (g a).elim (.next s) (h s)) (s : σ) (as : List α) : run f s as = run h s (as.filterMap g) := by
  induction as generalizing s with
  | nil => rfl
  | cons a as ih =>
    rw [run, hf, List.filterMap_cons]
    cases g a with
    | none => exact ih s
    | some b => exact congrArg _ (funext ih)

end Flow

/-- What has been read of a stream. -/
structure Streamed where
  total_usage : TokenUsage
  yielded : List Chunk

def Streamed.start : Streamed :=
  ⟨⟨0, 0⟩, []⟩

section loop

variable {σ ε : Type} (handle : σ → Text → Flow σ ε)

/-- `while let Some(idx) = buf.find("\n\n")`, with what is left of the buffer. -/
def drain (s : σ) (buf : Text) : Flow (σ × Text) ε :=
  match h : cutFrame buf with
  | none => .next (s, buf)
  | some (frame, rest) =>
    match handle s frame with
    | .next s => drain s rest
    | .stop s => .stop (s, rest)
    | .fail e => .fail e
termination_by buf.length
decreasing_by exact Text.length_of_cutFrame h

end loop

/-- The chunks, until the stream ends, a break or an error. -/
def streamLoop (handle : Streamed → Text → Flow Streamed LlmError) (items : List (Except String (List UInt8))) :
    Flow (Streamed × Text) LlmError :=
  .run (fun acc item =>
    match item with
    | .error e => .fail (.Stream e)
    | .ok bytes => drain handle acc.1 (acc.2 ++ fromUtf8Lossy bytes)) (.start, []) items

def yieldAll : Flow (Streamed × Text) LlmError → Except LlmError (List Chunk)
  | .next (st, _) | .stop (st, _) => .ok (st.yielded ++ [.Done st.total_usage])
  | .fail e => .error e

/-! ## OpenAI -/

/-- The text of the first choice, unless it is empty. -/
def ChatChunk.deltas (parsed : ChatChunk) : List Chunk :=
  match (parsed.choices.head?.bind ChatChunkChoice.delta).bind ChatChunkDelta.content with
  | some text => if text.isEmpty then [] else [.Delta text]
  | none => []

def ChatUsage.total (usage : ChatUsage) : TokenUsage :=
  ⟨usage.prompt_tokens, usage.completion_tokens⟩

def Streamed.chat (st : Streamed) (parsed : ChatChunk) : Streamed where
  total_usage := parsed.usage.elim st.total_usage ChatUsage.total
  yielded := st.yielded ++ parsed.deltas

def done : Text :=
  "[DONE]".toList

def openaiPayload (serde : Payloads) (st : Streamed) (payload : Text) : Flow Streamed LlmError :=
  if payload = done then .stop st
  else
    match serde.chatChunk payload with
    | .error e => .fail (.Decode e)
    | .ok parsed => .next (st.chat parsed)

/-- What stands behind `data:` on a line. -/
def dataOf (line : Text) : Option Text :=
  stripPrefix "data:".toList line

def openaiLine (serde : Payloads) (st : Streamed) (line : Text) : Flow Streamed LlmError :=
  ((dataOf line).map trim).elim (.next st) (openaiPayload serde st)

def openaiFrame (serde : Payloads) (st : Streamed) (frame : Text) : Flow Streamed LlmError :=
  .run (openaiLine serde) st (lines frame)

def openaiStream (serde : Payloads) (items : List (Except String (List UInt8))) : Except LlmError (List Chunk) :=
  yieldAll (streamLoop (openaiFrame serde) items)

/-! ## Anthropic -/

def fieldStep (fields : Option Text × Option Text) (line : Text) : Option Text × Option Text :=
  match stripPrefix "event:".toList line with
  | some rest => (some rest, fields.2)
  | none =>
    match dataOf line with
    | some rest => (fields.1, some rest)
    | none => fields

/-- What stands behind `event:` and behind `data:` in a frame, the last of each. -/
def fieldsOf (frame : Text) : Option Text × Option Text :=
  (lines frame).foldl fieldStep (none, none)

def Streamed.delta (st : Streamed) (parsed : SseDelta) : Streamed :=
  { st with yielded := st.yielded ++ (parsed.text.map Chunk.Delta).toList }

/-- `u32::saturating_add` -/
def saturatingAdd (a b : BitVec 32) : BitVec 32 :=
  BitVec.ofNat 32 (min (a.toNat + b.toNat) (2 ^ 32 - 1))

def Streamed.message (st : Streamed) (parsed : SseMessageDelta) : Streamed :=
  match parsed.usage with
  | none => st
  | some u =>
    { st with
      total_usage := ⟨u.input_tokens.getD st.total_usage.prompt_tokens,
        saturatingAdd st.total_usage.completion_tokens u.output_tokens⟩ }

def contentBlockDelta : Text :=
  "content_block_delta".toList

def messageDelta : Text :=
  "message_delta".toList

def anthropicFrame (serde : Payloads) (st : Streamed) (frame : Text) : Flow Streamed LlmError :=
  match fieldsOf frame with
  | (some event, some data) =>
    if trim event = contentBlockDelta then
      match serde.sseDelta (trim data) with
      | .error e => .fail (.Decode e)
      | .ok parsed => .next (st.delta parsed)
    else if trim event = messageDelta then
      match serde.sseMessageDelta (trim data) with
      | .error e => .fail (.Decode e)
      | .ok parsed => .next (st.message parsed)
    else .next st
  | _ => .next st

def anthropicStream (serde : Payloads) (items : List (Except String (List UInt8))) : Except LlmError (List Chunk) :=
  yieldAll (streamLoop (anthropicFrame serde) items)

/-! ## What a stream says -/

/-- All frames of a stream, the last one even where no blank line follows it. -/
def allFrames (t : Text) : List Text :=
  (frames t).1 ++ [(frames t).2]

/-- What stands behind `data:` in the frames. -/
def dataLines (fs : List Text) : List Text :=
  (fs.flatMap lines).filterMap dataOf

/-- The payloads of an OpenAI stream, up to the one that ends it. -/
def openaiPayloads (fs : List Text) : List Text :=
  ((dataLines fs).map trim).takeWhile (· ≠ done)

/-- The text deltas in order, and the last usage. -/
def openaiComplete (serde : Payloads) (t : Text) : Option (List Chunk) :=
  ((openaiPayloads (allFrames t)).mapM fun payload => (serde.chatChunk payload).toOption).map fun parsed =>
    parsed.flatMap ChatChunk.deltas ++
      [.Done (((parsed.filterMap ChatChunk.usage).getLast?.map ChatUsage.total).getD ⟨0, 0⟩)]

inductive SseEvent where
  | content (payload : Text)
  | message (payload : Text)
  deriving DecidableEq

/-- The event of a frame that is read. -/
def eventOf (frame : Text) : Option SseEvent :=
  match fieldsOf frame with
  | (some event, some data) =>
    if trim event = contentBlockDelta then some (.content (trim data))
    else if trim event = messageDelta then some (.message (trim data))
    else none
  | _ => none

/-- What an event says: a text, or a usage. -/
structure Said where
  text : Option String
  usage : Option SseMessageDeltaUsage

def SseEvent.said (serde : Payloads) : SseEvent → Option Said
  | .content payload => (serde.sseDelta payload).toOption.map fun parsed => ⟨parsed.text, none⟩
  | .message payload => (serde.sseMessageDelta payload).toOption.map fun parsed => ⟨none, parsed.usage⟩

/-- The usage that is reported: the last count of input tokens, and the sum of the output tokens as far as it fits. -/
def usageOf (usages : List SseMessageDeltaUsage) : TokenUsage where
  prompt_tokens := (usages.filterMap SseMessageDeltaUsage.input_tokens).getLast?.getD 0
  completion_tokens := BitVec.ofNat 32 (min (usages.map fun u => u.output_tokens.toNat).sum (2 ^ 32 - 1))

/-- The text deltas in order, and the usage. -/
def anthropicComplete (serde : Payloads) (t : Text) : Option (List Chunk) :=
  (((allFrames t).filterMap eventOf).mapM (SseEvent.said serde)).map fun said =>
    (said.filterMap Said.text).map Chunk.Delta ++ [.Done (usageOf (said.filterMap Said.usage))]

/-- The result is the same for all chunks of a text, and it is what the text says if its payloads parse. -/
structure ReadsWhole (stream : List (Except String (List UInt8)) → Except LlmError (List Chunk))
    (complete : Option (List Chunk)) (t : Text) : Prop where
  alike : ∀ a b : List (List UInt8), a.flatten = utf8 t → b.flatten = utf8 t →
    stream (a.map .ok) = stream (b.map .ok)
  whole : ∀ chunks, complete = some chunks → ∀ a : List (List UInt8), a.flatten = utf8 t →
    stream (a.map .ok) = .ok chunks

/-- The data lines up to the one that ends the stream. -/
def readLines : List Text → List Text
  | [] => []
  | raw :: rest => raw :: if trim raw = done then [] else readLines rest

def IsAscii (s : Text) : Prop :=
  ∀ c ∈ s, c.toNat < 0x80

instance (s : Text) : Decidable (IsAscii s) :=
  inferInstanceAs (Decidable (∀ c ∈ s, c.toNat < 0x80))

/-- The data lines are ASCII up to the end of the stream, and no payload stands behind the last blank line. -/
structure OpenaiWhole (t : Text) : Prop where
  ascii : ∀ raw ∈ readLines (dataLines (frames t).1), IsAscii raw
  last : openaiPayloads (allFrames t) = openaiPayloads (frames t).1

/-- The names and the payloads of the events that are read are ASCII, and none stands behind the last blank line. -/
structure AnthropicWhole (t : Text) : Prop where
  ascii : ∀ frame ∈ (frames t).1, (eventOf frame).isSome → ∀ event data, fieldsOf frame = (some event, some data) →
    IsAscii event ∧ IsAscii data
  last : eventOf (frames t).2 = none

section loop

variable {σ ε : Type} {handle : σ → Text → Flow σ ε}

/-- A loop over a buffer comes to what the frames come to, and leaves the rest of the buffer where it does not break. -/
def Flow.Leaves (flow : Flow σ ε) (rest : Text) : Flow (σ × Text) ε → Prop :=
  match flow with
  | .next s => fun out => out = .next (s, rest)
  | .stop s => fun out => ∃ buf, out = .stop (s, buf)
  | .fail e => fun out => out = .fail e

theorem leaves_drain (s : σ) (buf : Text) :
    (Flow.run handle s (frames buf).1).Leaves (frames buf).2 (drain handle s buf) := by
  induction hn : buf.length using Nat.strong_induction_on generalizing s buf with
  | _ n ih =>
    rw [drain]
    split
    · next hcut =>
      rw [Text.frames_of_none hcut]
      exact rfl
    · next frame rest hcut =>
      rw [Text.frames_of_some hcut, Flow.run]
      cases handle s frame with
      | next s => exact ih rest.length (hn ▸ Text.length_of_cutFrame hcut) s rest rfl
      | stop s => exact ⟨rest, rfl⟩
      | fail e => exact rfl

end loop

theorem cutFrame_rest (s : Text) : cutFrame (frames s).2 = none := by
  induction hn : s.length using Nat.strong_induction_on generalizing s with
  | _ n ih =>
    cases hcut : cutFrame s with
    | none => rwa [Text.frames_of_none hcut]
    | some cut =>
      rw [Text.frames_of_some hcut]
      exact ih _ (hn ▸ Text.length_of_cutFrame hcut) _ rfl

/-- The loop over chunks comes to what the frames of all their texts come to. -/
theorem leaves_chunks {handle : Streamed → Text → Flow Streamed LlmError} (chunks : List (List UInt8)) (st : Streamed)
    {buf : Text} (hbuf : cutFrame buf = none) :
    (Flow.run handle st (frames (buf ++ chunks.flatMap fromUtf8Lossy)).1).Leaves
      (frames (buf ++ chunks.flatMap fromUtf8Lossy)).2
      (Flow.run (fun acc item =>
        match item with
        | .error e => .fail (.Stream e)
        | .ok bytes => drain handle acc.1 (acc.2 ++ fromUtf8Lossy bytes)) (st, buf)
          (chunks.map (.ok : List UInt8 → Except String (List UInt8)))) := by
  induction chunks generalizing st buf with
  | nil =>
    rw [List.flatMap_nil, List.append_nil, Text.frames_of_none hbuf]
    exact rfl
  | cons chunk chunks ih =>
    have hdrain := @leaves_drain _ _ handle st (buf ++ fromUtf8Lossy chunk)
    rw [List.flatMap_cons, ← List.append_assoc, Text.frames_append, Flow.run_append, List.map_cons, Flow.run]
    simp only
    cases hflow : Flow.run handle st (frames (buf ++ fromUtf8Lossy chunk)).1 with
    | next st' =>
      rw [hflow] at hdrain
      rw [show drain handle st (buf ++ fromUtf8Lossy chunk) = _ from hdrain]
      exact ih st' (cutFrame_rest _)
    | stop st' =>
      rw [hflow] at hdrain
      obtain ⟨rest, hdrain⟩ := hdrain
      rw [hdrain]
      exact ⟨rest, rfl⟩
    | fail e =>
      rw [hflow] at hdrain
      rw [show drain handle st (buf ++ fromUtf8Lossy chunk) = _ from hdrain]
      exact rfl

def finish : Flow Streamed LlmError → Except LlmError (List Chunk)
  | .next st | .stop st => .ok (st.yielded ++ [.Done st.total_usage])
  | .fail e => .error e

theorem yieldAll_streamLoop (handle : Streamed → Text → Flow Streamed LlmError) (chunks : List (List UInt8)) :
    yieldAll (streamLoop handle (chunks.map .ok)) =
      finish (Flow.run handle .start (frames (chunks.flatMap fromUtf8Lossy)).1) := by
  have h := @leaves_chunks handle chunks .start [] rfl
  rw [List.nil_append] at h
  unfold streamLoop
  cases hflow : Flow.run handle .start (frames (chunks.flatMap fromUtf8Lossy)).1 with
  | next st =>
    rw [hflow] at h
    rw [show Flow.run _ _ _ = _ from h]
    rfl
  | stop st =>
    rw [hflow] at h
    obtain ⟨rest, h⟩ := h
    rw [h]
    rfl
  | fail e =>
    rw [hflow] at h
    rw [show Flow.run _ _ _ = _ from h]
    rfl

/-! ## OpenAI streams -/

theorem run_openaiFrame (serde : Payloads) (st : Streamed) (fs : List Text) :
    Flow.run (openaiFrame serde) st fs = Flow.run (openaiPayload serde) st ((dataLines fs).map trim) := by
  have hlines : Flow.run (openaiFrame serde) st fs = Flow.run (openaiLine serde) st (fs.flatMap lines) :=
    (Flow.run_flatMap lines st fs).symm
  have hpayloads := Flow.run_filterMap (f := openaiLine serde) (g := fun line => (dataOf line).map trim)
    (h := openaiPayload serde) (fun _ _ => rfl) st (fs.flatMap lines)
  rw [hlines, hpayloads, dataLines, List.map_filterMap]

theorem openaiStream_eq (serde : Payloads) (chunks : List (List UInt8)) :
    openaiStream serde (chunks.map .ok) = finish (Flow.run (openaiPayload serde) .start
      ((dataLines (frames (chunks.flatMap fromUtf8Lossy)).1).map trim)) := by
  rw [openaiStream, yieldAll_streamLoop, run_openaiFrame]

theorem foldl_chat (parsed : List ChatChunk) (st : Streamed) : parsed.foldl Streamed.chat st =
    ⟨((parsed.filterMap ChatChunk.usage).getLast?.map ChatUsage.total).getD st.total_usage,
      st.yielded ++ parsed.flatMap ChatChunk.deltas⟩ := by
  induction parsed generalizing st with
  | nil => rw [List.flatMap_nil, List.append_nil]; rfl
  | cons p parsed ih =>
    rw [List.foldl_cons, ih, Streamed.chat, List.flatMap_cons, List.append_assoc]
    congr 1
    cases hp : p.usage with
    | none => rw [List.filterMap_cons_none hp]; rfl
    | some u =>
      rw [List.filterMap_cons_some hp]
      cases hlast : (parsed.filterMap ChatChunk.usage).getLast? with
      | none => rw [List.getLast?_eq_none_iff.1 hlast]; rfl
      | some v =>
        obtain ⟨before, hbefore⟩ := List.getLast?_eq_some_iff.1 hlast
        rw [hbefore, ← List.cons_append, List.getLast?_concat]
        rfl

/-- Payloads that parse, up to the end of the stream. -/
theorem finish_run_payload {serde : Payloads} {payloads : List Text} {parsed : List ChatChunk} (st : Streamed)
    (h : (payloads.takeWhile (· ≠ done)).mapM (fun payload => (serde.chatChunk payload).toOption) = some parsed) :
    finish (Flow.run (openaiPayload serde) st payloads) =
      .ok ((parsed.foldl Streamed.chat st).yielded ++ [.Done (parsed.foldl Streamed.chat st).total_usage]) := by
  induction payloads generalizing st parsed with
  | nil =>
    cases h
    rfl
  | cons payload payloads ih =>
    rw [Flow.run, openaiPayload]
    by_cases hdone : payload = done
    · rw [List.takeWhile_cons_of_neg (by simpa using hdone)] at h
      cases h
      rw [if_pos hdone]
      rfl
    · rw [List.takeWhile_cons_of_pos (by simpa using hdone), List.mapM_cons] at h
      rw [if_neg hdone]
      cases hpayload : serde.chatChunk payload with
      | error e =>
        rw [hpayload] at h
        cases h
      | ok p =>
        rw [hpayload] at h
        have hbind : (List.mapM (fun payload => (serde.chatChunk payload).toOption)
            (payloads.takeWhile (· ≠ done))).bind (fun rest => some (p :: rest)) = some parsed := h
        obtain ⟨rest, hrest, he⟩ := Option.bind_eq_some_iff.1 hbind
        cases he
        exact ih (st.chat p) hrest

theorem marked_dataLines {keep : Char → Prop} {fs fs' : List Text} (h : List.Forall₂ (Marked keep) fs fs') :
    List.Forall₂ (Marked keep) (dataLines fs) (dataLines fs') := by
  have hlines : List.Forall₂ (Marked keep) (fs.flatMap lines) (fs'.flatMap lines) := by
    induction h with
    | nil => exact .nil
    | cons hf _ ih =>
      rw [List.flatMap_cons, List.flatMap_cons]
      exact List.rel_append hf.lines ih
  unfold dataLines
  generalize fs.flatMap lines = ls at hlines
  generalize fs'.flatMap lines = ls' at hlines
  induction hlines with
  | nil => exact .nil
  | @cons l l' ls ls' hl _ ih =>
    have hrel : Option.Rel (Marked keep) (dataOf l) (dataOf l') := hl.stripPrefix (Marked.ascii_of_all rfl)
    rw [List.filterMap_cons, List.filterMap_cons]
    cases hdata : dataOf l with
    | none =>
      rw [hdata] at hrel
      cases hdata' : dataOf l' with
      | none => exact ih
      | some raw' => rw [hdata'] at hrel; cases hrel
    | some raw =>
      rw [hdata] at hrel
      cases hdata' : dataOf l' with
      | none => rw [hdata'] at hrel; cases hrel
      | some raw' =>
        rw [hdata'] at hrel
        cases hrel with
        | some hraw => exact .cons hraw ih

/-- Marks that are not in the data lines up to the end of the stream change nothing. -/
theorem run_marked {serde : Payloads} {keep : Char → Prop} {raws raws' : List Text}
    (h : List.Forall₂ (Marked keep) raws raws') (hascii : ∀ raw ∈ readLines raws, IsAscii raw) (st : Streamed) :
    Flow.run (openaiPayload serde) st (raws'.map trim) = Flow.run (openaiPayload serde) st (raws.map trim) := by
  induction h generalizing st with
  | nil => rfl
  | @cons raw raw' raws raws' hraw _ ih =>
    rw [readLines] at hascii
    obtain ⟨hhead, hrest⟩ := List.forall_mem_cons.1 hascii
    obtain rfl := hraw.eq_of_ascii hhead
    rw [List.map_cons, List.map_cons, Flow.run, Flow.run, openaiPayload]
    by_cases hdone : trim raw' = done
    · rw [if_pos hdone]
      rfl
    · rw [if_neg hdone] at hrest ⊢
      exact congrArg _ (funext fun st => ih hrest st)

theorem readsWhole_openai {t : Text} (h : OpenaiWhole t) (serde : Payloads) :
    ReadsWhole (openaiStream serde) (openaiComplete serde t) t := by
  have hrun (a : List (List UInt8)) (ha : a.flatten = utf8 t) : openaiStream serde (a.map .ok) =
      finish (Flow.run (openaiPayload serde) .start ((dataLines (frames t).1).map trim)) := by
    rw [openaiStream_eq, run_marked (marked_dataLines (Text.marked_of_chunks ha).frames.1) h.ascii]
  refine ⟨fun a b ha hb => (hrun a ha).trans (hrun b hb).symm, fun chunks hchunks a ha => ?_⟩
  obtain ⟨parsed, hparsed, rfl⟩ := Option.map_eq_some_iff.1 hchunks
  rw [h.last] at hparsed
  rw [hrun a ha, finish_run_payload .start hparsed, foldl_chat]
  rfl

theorem openaiStream_complete {serde : Payloads} {chunks : List (List UInt8)} {parsed : List ChatChunk}
    (h : (openaiPayloads (frames (chunks.flatMap fromUtf8Lossy)).1).mapM (fun payload =>
      (serde.chatChunk payload).toOption) = some parsed) : openaiStream serde (chunks.map .ok) =
      .ok (parsed.flatMap ChatChunk.deltas ++
        [.Done (((parsed.filterMap ChatChunk.usage).getLast?.map ChatUsage.total).getD ⟨0, 0⟩)]) := by
  rw [openaiStream_eq, finish_run_payload .start h, foldl_chat]
  rfl

/-- A payload as the text of an event, with a mark in front. -/
def echoed (payload : Text) : ChatChunk :=
  ⟨[⟨some ⟨some (String.ofList ('.' :: payload))⟩⟩], none⟩

/-- A parser that takes every payload as a text. -/
def echo : Payloads where
  chatChunk payload := .ok (echoed payload)
  sseDelta payload := .ok ⟨some (String.ofList payload)⟩
  sseMessageDelta _ := .ok ⟨none⟩

def echoDelta (payload : Text) : Chunk :=
  .Delta (String.ofList ('.' :: payload))

theorem echoDelta_injective : Function.Injective echoDelta :=
  fun _ _ h => (List.cons.inj (String.ofList_injective (Chunk.Delta.inj h))).2

theorem mapM_echo (payloads : List Text) :
    payloads.mapM (fun payload => (echo.chatChunk payload).toOption) = some (payloads.map echoed) :=
  List.mapM_pure

theorem said_echoed (payloads : List Text) : (payloads.map echoed).flatMap ChatChunk.deltas ++
    [.Done ((((payloads.map echoed).filterMap ChatChunk.usage).getLast?.map ChatUsage.total).getD ⟨0, 0⟩)] =
      payloads.map echoDelta ++ [.Done ⟨0, 0⟩] := by
  have hdelta (payload : Text) : (echoed payload).deltas = [echoDelta payload] := if_neg (by simp)
  have husage : (payloads.map echoed).filterMap ChatChunk.usage = [] :=
    List.filterMap_eq_nil_iff.2 (List.forall_mem_map.2 fun _ _ => rfl)
  rw [husage, List.flatMap_map]
  simp only [hdelta]
  rw [← List.map_eq_flatMap]
  rfl

theorem openaiComplete_echo (t : Text) :
    openaiComplete echo t = some ((openaiPayloads (allFrames t)).map echoDelta ++ [.Done ⟨0, 0⟩]) := by
  rw [openaiComplete, mapM_echo, Option.map_some, said_echoed]

theorem openaiStream_echo (chunks : List (List UInt8)) : openaiStream echo (chunks.map .ok) =
    .ok ((openaiPayloads (frames (chunks.flatMap fromUtf8Lossy)).1).map echoDelta ++ [.Done ⟨0, 0⟩]) := by
  rw [openaiStream_complete (mapM_echo _), said_echoed]

theorem trim_ne {raw raw' : Text} (h : Marked (·.toNat < 0x80) raw raw') (hascii : ¬ IsAscii raw) :
    trim raw' ≠ trim raw ∧ replacement ∈ trim raw' := by
  have hchar : ∃ c ∈ raw, 0x80 ≤ c.toNat := by
    simpa [IsAscii] using hascii
  have hlt := h.count_lt hchar
  constructor
  · intro heq
    have hcount := congrArg (List.count replacement) heq
    rw [Text.count_trim Text.isWhitespace_replacement, Text.count_trim Text.isWhitespace_replacement] at hcount
    omega
  · rw [Text.mem_trim_replacement, ← List.count_pos_iff]
    omega

/-- Marks in the data lines up to the end of the stream change a payload. -/
theorem isAscii_of_payloads_eq {raws raws' : List Text} (h : List.Forall₂ (Marked (·.toNat < 0x80)) raws raws')
    (heq : (raws'.map trim).takeWhile (· ≠ done) = (raws.map trim).takeWhile (· ≠ done)) :
    ∀ raw ∈ readLines raws, IsAscii raw := by
  induction h with
  | nil => exact fun _ hmem => absurd hmem List.not_mem_nil
  | @cons raw raw' raws raws' hraw _ ih =>
    rw [readLines]
    by_cases hascii : IsAscii raw
    · obtain rfl := hraw.eq_of_ascii hascii
      refine List.forall_mem_cons.2 ⟨hascii, ?_⟩
      by_cases hdone : trim raw' = done
      · rw [if_pos hdone]
        exact fun _ hmem => absurd hmem List.not_mem_nil
      · rw [if_neg hdone]
        rw [List.map_cons, List.map_cons, List.takeWhile_cons_of_pos (by simpa using hdone),
          List.takeWhile_cons_of_pos (by simpa using hdone)] at heq
        exact ih (List.cons.inj heq).2
    · obtain ⟨hne, hmem⟩ := trim_ne hraw hascii
      have hdone' : trim raw' ≠ done := by
        intro hdone
        rw [hdone] at hmem
        exact absurd hmem (by decide)
      rw [List.map_cons, List.map_cons, List.takeWhile_cons_of_pos (by simpa using hdone')] at heq
      by_cases hdone : trim raw = done
      · rw [List.takeWhile_cons_of_neg (by simpa using hdone)] at heq
        cases heq
      · rw [List.takeWhile_cons_of_pos (by simpa using hdone)] at heq
        exact absurd (List.cons.inj heq).1 hne

theorem flatten_bytes (bytes : List UInt8) : (bytes.map ([·])).flatten = bytes := by
  induction bytes with
  | nil => rfl
  | cons b bytes ih => rw [List.map_cons, List.flatten_cons, ih]; rfl

theorem openaiWhole_of_readsWhole {t : Text} (h : ReadsWhole (openaiStream echo) (openaiComplete echo t) t) :
    OpenaiWhole t := by
  have hwhole : (frames ([utf8 t].flatMap fromUtf8Lossy)).1 = (frames t).1 := by
    rw [List.flatMap_singleton, Text.fromUtf8Lossy_utf8]
  have hsingle : [utf8 t].flatten = utf8 t := List.append_nil _
  constructor
  · have heq := h.alike [utf8 t] ((utf8 t).map ([·])) hsingle (flatten_bytes _)
    rw [openaiStream_echo, openaiStream_echo, hwhole, Except.ok.injEq, List.append_left_inj] at heq
    exact isAscii_of_payloads_eq (marked_dataLines (Text.marked_bytes t).frames.1)
      (List.map_injective_iff.2 echoDelta_injective heq).symm
  · have heq := h.whole _ (openaiComplete_echo t) [utf8 t] hsingle
    rw [openaiStream_echo, hwhole, Except.ok.injEq, List.append_left_inj] at heq
    exact (List.map_injective_iff.2 echoDelta_injective heq).symm

/-! ## Anthropic streams -/

def anthropicEvent (serde : Payloads) (st : Streamed) : SseEvent → Flow Streamed LlmError
  | .content payload =>
    match serde.sseDelta payload with
    | .error e => .fail (.Decode e)
    | .ok parsed => .next (st.delta parsed)
  | .message payload =>
    match serde.sseMessageDelta payload with
    | .error e => .fail (.Decode e)
    | .ok parsed => .next (st.message parsed)

theorem anthropicFrame_eq (serde : Payloads) (st : Streamed) (frame : Text) :
    anthropicFrame serde st frame = (eventOf frame).elim (.next st) (anthropicEvent serde st) := by
  unfold anthropicFrame eventOf
  split
  · split
    · rfl
    split <;> rfl
  · rfl

theorem anthropicStream_eq (serde : Payloads) (chunks : List (List UInt8)) :
    anthropicStream serde (chunks.map .ok) = finish (Flow.run (anthropicEvent serde) .start
      ((frames (chunks.flatMap fromUtf8Lossy)).1.filterMap eventOf)) := by
  rw [anthropicStream, yieldAll_streamLoop, Flow.run_filterMap (anthropicFrame_eq serde)]

def Streamed.say (st : Streamed) (said : Said) : Streamed :=
  (st.delta ⟨said.text⟩).message ⟨said.usage⟩

theorem anthropicEvent_said {serde : Payloads} {event : SseEvent} {said : Said} (h : event.said serde = some said)
    (st : Streamed) : anthropicEvent serde st event = .next (st.say said) := by
  cases event with
  | content payload =>
    rw [SseEvent.said] at h
    rw [anthropicEvent]
    cases hparsed : serde.sseDelta payload with
    | error e => rw [hparsed] at h; cases h
    | ok parsed => rw [hparsed] at h; cases h; rfl
  | message payload =>
    rw [SseEvent.said] at h
    rw [anthropicEvent]
    cases hparsed : serde.sseMessageDelta payload with
    | error e => rw [hparsed] at h; cases h
    | ok parsed =>
      rw [hparsed] at h
      cases h
      have hdelta : st.delta ⟨none⟩ = st := by
        unfold Streamed.delta
        rw [Option.map_none, Option.toList_none, List.append_nil]
      rw [Streamed.say, hdelta]

theorem run_said {serde : Payloads} {events : List SseEvent} {said : List Said}
    (h : events.mapM (SseEvent.said serde) = some said) (st : Streamed) :
    Flow.run (anthropicEvent serde) st events = .next (said.foldl Streamed.say st) := by
  induction events generalizing said st with
  | nil => cases h; rfl
  | cons event events ih =>
    rw [List.mapM_cons] at h
    obtain ⟨first, hfirst, h⟩ := Option.bind_eq_some_iff.1 h
    obtain ⟨rest, hrest, he⟩ := Option.bind_eq_some_iff.1 h
    cases he
    rw [Flow.run, anthropicEvent_said hfirst]
    exact ih hrest (st.say first)

theorem yielded_message (st : Streamed) (parsed : SseMessageDelta) : (st.message parsed).yielded = st.yielded := by
  unfold Streamed.message
  split <;> rfl

theorem yielded_say (said : List Said) (st : Streamed) :
    (said.foldl Streamed.say st).yielded = st.yielded ++ (said.filterMap Said.text).map Chunk.Delta := by
  induction said generalizing st with
  | nil => exact (List.append_nil _).symm
  | cons first said ih =>
    rw [List.foldl_cons, ih, Streamed.say, yielded_message, Streamed.delta, List.filterMap_cons, List.append_assoc]
    cases first.text <;> rfl

theorem prompt_say (said : List Said) (st : Streamed) : (said.foldl Streamed.say st).total_usage.prompt_tokens =
    ((said.filterMap Said.usage).filterMap SseMessageDeltaUsage.input_tokens).getLast?.getD
      st.total_usage.prompt_tokens := by
  induction said generalizing st with
  | nil => rfl
  | cons first said ih =>
    rw [List.foldl_cons, ih, List.filterMap_cons]
    have hprompt : (st.say first).total_usage.prompt_tokens =
        (first.usage.bind SseMessageDeltaUsage.input_tokens).getD st.total_usage.prompt_tokens := by
      rw [Streamed.say, Streamed.message]
      cases first.usage <;> rfl
    rw [hprompt]
    cases first.usage with
    | none => rfl
    | some u =>
      simp only [Option.bind_some]
      rw [List.filterMap_cons]
      cases u.input_tokens with
      | none => rfl
      | some n =>
        cases hlast : ((said.filterMap Said.usage).filterMap SseMessageDeltaUsage.input_tokens).getLast? with
        | none => rw [List.getLast?_eq_none_iff.1 hlast]; rfl
        | some last =>
          obtain ⟨before, hbefore⟩ := List.getLast?_eq_some_iff.1 hlast
          have hcons : (n :: (before ++ [last])).getLast? = some last := by
            rw [← List.cons_append, List.getLast?_concat]
          rw [hbefore]
          exact (congrArg (Option.getD · st.total_usage.prompt_tokens) hcons).symm

theorem completion_say (said : List Said) (st : Streamed) :
    (said.foldl Streamed.say st).total_usage.completion_tokens.toNat = min (st.total_usage.completion_tokens.toNat +
      ((said.filterMap Said.usage).map fun u => u.output_tokens.toNat).sum) (2 ^ 32 - 1) := by
  induction said generalizing st with
  | nil =>
    have := st.total_usage.completion_tokens.isLt
    simp only [List.foldl_nil, List.filterMap_nil, List.map_nil, List.sum_nil]
    omega
  | cons first said ih =>
    rw [List.foldl_cons, ih, List.filterMap_cons, Streamed.say, Streamed.message]
    cases first.usage with
    | none => rfl
    | some u =>
      have hadd : (saturatingAdd st.total_usage.completion_tokens u.output_tokens).toNat =
          min (st.total_usage.completion_tokens.toNat + u.output_tokens.toNat) (2 ^ 32 - 1) := by
        rw [saturatingAdd, BitVec.toNat_ofNat]
        exact Nat.mod_eq_of_lt (by omega)
      simp only [List.map_cons, List.sum_cons]
      have hdelta : (st.delta ⟨first.text⟩).total_usage = st.total_usage := rfl
      rw [hdelta, hadd]
      omega

theorem finish_run_said {serde : Payloads} {events : List SseEvent} {said : List Said}
    (h : events.mapM (SseEvent.said serde) = some said) : finish (Flow.run (anthropicEvent serde) .start events) =
      .ok ((said.filterMap Said.text).map Chunk.Delta ++ [.Done (usageOf (said.filterMap Said.usage))]) := by
  have husage : (said.foldl Streamed.say .start).total_usage = usageOf (said.filterMap Said.usage) := by
    have hprompt := prompt_say said .start
    have hcompletion := completion_say said .start
    have htoNat : (BitVec.ofNat 32 (min ((said.filterMap Said.usage).map fun u => u.output_tokens.toNat).sum
        (2 ^ 32 - 1))).toNat =
          min ((said.filterMap Said.usage).map fun u => u.output_tokens.toNat).sum (2 ^ 32 - 1) := by
      rw [BitVec.toNat_ofNat]
      exact Nat.mod_eq_of_lt (by omega)
    have hzero : Streamed.start.total_usage.completion_tokens.toNat = 0 := rfl
    rw [hzero, Nat.zero_add] at hcompletion
    calc (said.foldl Streamed.say .start).total_usage
        = ⟨(said.foldl Streamed.say .start).total_usage.prompt_tokens,
          (said.foldl Streamed.say .start).total_usage.completion_tokens⟩ := rfl
      _ = usageOf (said.filterMap Said.usage) := by
        rw [hprompt, BitVec.eq_of_toNat_eq (hcompletion.trans htoNat.symm)]
        rfl
  rw [run_said h, finish, yielded_say, husage]
  rfl

/-! ## Marks in frames -/

section marks

variable {keep : Char → Prop} {frame frame' : Text}

/-- Fields with marks in place of characters. -/
def MarkedFields (keep : Char → Prop) (fields fields' : Option Text × Option Text) : Prop :=
  Option.Rel (Marked keep) fields.1 fields'.1 ∧ Option.Rel (Marked keep) fields.2 fields'.2

theorem marked_fieldStep {fields fields' : Option Text × Option Text} {line line' : Text}
    (h : MarkedFields keep fields fields') (hline : Marked keep line line') :
    MarkedFields keep (fieldStep fields line) (fieldStep fields' line') := by
  have hevent : Option.Rel (Marked keep) (stripPrefix "event:".toList line) (stripPrefix "event:".toList line') :=
    hline.stripPrefix (Marked.ascii_of_all rfl)
  have hdata : Option.Rel (Marked keep) (dataOf line) (dataOf line') :=
    hline.stripPrefix (Marked.ascii_of_all rfl)
  unfold fieldStep
  generalize stripPrefix "event:".toList line = event at hevent
  generalize stripPrefix "event:".toList line' = event' at hevent
  generalize dataOf line = data at hdata
  generalize dataOf line' = data' at hdata
  cases hevent with
  | some hevent => exact ⟨.some hevent, h.2⟩
  | none =>
    cases hdata with
    | some hdata => exact ⟨h.1, .some hdata⟩
    | none => exact h

theorem marked_fieldsOf (h : Marked keep frame frame') : MarkedFields keep (fieldsOf frame) (fieldsOf frame') := by
  have hfold {ls ls' : List Text} (hls : List.Forall₂ (Marked keep) ls ls') :
      ∀ {fields fields' : Option Text × Option Text}, MarkedFields keep fields fields' →
        MarkedFields keep (ls.foldl fieldStep fields) (ls'.foldl fieldStep fields') := by
    induction hls with
    | nil => exact fun h => h
    | cons hline _ ih => exact fun h => ih (marked_fieldStep h hline)
  exact hfold h.lines ⟨.none, .none⟩

theorem eventOf_eq_some {event : SseEvent} : eventOf frame = some event ↔
    ∃ name data, fieldsOf frame = (some name, some data) ∧
      (trim name = contentBlockDelta ∧ event = .content (trim data) ∨
        trim name = messageDelta ∧ event = .message (trim data)) := by
  unfold eventOf
  constructor
  · intro h
    split at h
    · next name data hfields =>
      refine ⟨name, data, hfields, ?_⟩
      split at h
      · next hname => exact .inl ⟨hname, (Option.some.inj h).symm⟩
      split at h
      · next hname => exact .inr ⟨hname, (Option.some.inj h).symm⟩
      · cases h
    · cases h
  · rintro ⟨name, data, hfields, ⟨hname, rfl⟩ | ⟨hname, rfl⟩⟩
    · rw [hfields]
      exact if_pos hname
    · have hne : trim name ≠ contentBlockDelta := by rw [hname]; decide
      rw [hfields]
      exact (if_neg hne).trans (if_pos hname)

theorem not_mem_of_name {name : Text} (h : trim name = contentBlockDelta ∨ trim name = messageDelta) :
    replacement ∉ name := by
  rw [← Text.mem_trim_replacement]
  rcases h with h | h <;> rw [h] <;> decide

/-- Where marks stand, an event that is read is one without them, with the same name. -/
theorem exists_event (h : Marked keep frame frame') {event' : SseEvent} (hevent : eventOf frame' = some event') :
    ∃ name data data', fieldsOf frame = (some name, some data) ∧ fieldsOf frame' = (some name, some data') ∧
      Marked keep name name ∧ Marked keep data data' ∧ (trim name = contentBlockDelta ∨ trim name = messageDelta) := by
  obtain ⟨name, data', hfields', hname⟩ := eventOf_eq_some.1 hevent
  have hnames : trim name = contentBlockDelta ∨ trim name = messageDelta := hname.imp And.left And.left
  obtain ⟨hrelname, hreldata⟩ := marked_fieldsOf h
  rw [hfields'] at hrelname hreldata
  rcases hfields : fieldsOf frame with ⟨_ | name', _ | data⟩
  · rw [hfields] at hrelname; cases hrelname
  · rw [hfields] at hrelname; cases hrelname
  · rw [hfields] at hreldata; cases hreldata
  · rw [hfields] at hrelname hreldata
    cases hrelname with
    | some hmarked =>
      cases hreldata with
      | some hdata =>
        obtain rfl := hmarked.eq_of_not_mem (not_mem_of_name hnames)
        exact ⟨name, data, data', rfl, hfields', hmarked, hdata, hnames⟩

theorem eventOf_marked (h : Marked keep frame frame')
    (hascii : (eventOf frame).isSome → ∀ event data, fieldsOf frame = (some event, some data) →
      IsAscii event ∧ IsAscii data) : eventOf frame' = eventOf frame := by
  cases hevent : eventOf frame with
  | some event =>
    obtain ⟨name, data, hfields, hname⟩ := eventOf_eq_some.1 hevent
    obtain ⟨hascii₁, hascii₂⟩ := hascii (by rw [hevent]; rfl) name data hfields
    obtain ⟨hrelname, hreldata⟩ := marked_fieldsOf h
    rw [hfields] at hrelname hreldata
    rcases hfields' : fieldsOf frame' with ⟨_ | name', _ | data'⟩
    · rw [hfields'] at hrelname; cases hrelname
    · rw [hfields'] at hrelname; cases hrelname
    · rw [hfields'] at hreldata; cases hreldata
    · rw [hfields'] at hrelname hreldata
      cases hrelname with
      | some hmarked =>
        cases hreldata with
        | some hdata =>
          obtain rfl := hmarked.eq_of_ascii hascii₁
          obtain rfl := hdata.eq_of_ascii hascii₂
          exact eventOf_eq_some.2 ⟨name', data', hfields', hname⟩
  | none =>
    by_contra hne
    obtain ⟨event', hevent'⟩ := Option.ne_none_iff_exists'.1 hne
    obtain ⟨name, data, data', hfields, -, -, -, hnames⟩ := exists_event h hevent'
    have hsome : (eventOf frame).isSome := by
      rcases hnames with hname | hname
      · exact Option.isSome_iff_exists.2 ⟨_, eventOf_eq_some.2 ⟨name, data, hfields, .inl ⟨hname, rfl⟩⟩⟩
      · exact Option.isSome_iff_exists.2 ⟨_, eventOf_eq_some.2 ⟨name, data, hfields, .inr ⟨hname, rfl⟩⟩⟩
    rw [hevent] at hsome
    cases hsome

end marks

theorem readsWhole_anthropic {t : Text} (h : AnthropicWhole t) (serde : Payloads) :
    ReadsWhole (anthropicStream serde) (anthropicComplete serde t) t := by
  have hevents {fs fs' : List Text} (hfs : List.Forall₂ (Marked fun _ => True) fs fs')
      (hascii : ∀ frame ∈ fs, (eventOf frame).isSome → ∀ event data, fieldsOf frame = (some event, some data) →
        IsAscii event ∧ IsAscii data) : fs'.filterMap eventOf = fs.filterMap eventOf := by
    induction hfs with
    | nil => rfl
    | cons hframe _ ih =>
      obtain ⟨hhead, hrest⟩ := List.forall_mem_cons.1 hascii
      rw [List.filterMap_cons, List.filterMap_cons, eventOf_marked hframe hhead, ih hrest]
  have hrun (a : List (List UInt8)) (ha : a.flatten = utf8 t) : anthropicStream serde (a.map .ok) =
      finish (Flow.run (anthropicEvent serde) .start ((frames t).1.filterMap eventOf)) := by
    rw [anthropicStream_eq, hevents (Text.marked_of_chunks ha).frames.1 h.ascii]
  refine ⟨fun a b ha hb => (hrun a ha).trans (hrun b hb).symm, fun chunks hchunks a ha => ?_⟩
  obtain ⟨said, hsaid, rfl⟩ := Option.map_eq_some_iff.1 hchunks
  rw [allFrames, List.filterMap_append, List.filterMap_cons_none h.last, List.filterMap_nil, List.append_nil] at hsaid
  rw [hrun a ha, finish_run_said hsaid]

/-! ## Counting events -/

def contentOf : SseEvent → Option Text
  | .content payload => some payload
  | .message _ => none

def messageOf : SseEvent → Option Text
  | .content _ => none
  | .message payload => some payload

def SseEvent.payload : SseEvent → Text
  | .content payload | .message payload => payload

/-- How many marks the payloads have. -/
def weight (events : List SseEvent) : Nat :=
  (events.map fun event => event.payload.count replacement).sum

theorem length_contents_add (events : List SseEvent) :
    (events.filterMap contentOf).length + (events.filterMap messageOf).length = events.length := by
  induction events with
  | nil => rfl
  | cons event events ih =>
    cases event with
    | content payload =>
      rw [List.filterMap_cons_some (f := contentOf) rfl, List.filterMap_cons_none (f := messageOf) rfl,
        List.length_cons, List.length_cons]
      omega
    | message payload =>
      rw [List.filterMap_cons_none (f := contentOf) rfl, List.filterMap_cons_some (f := messageOf) rfl,
        List.length_cons, List.length_cons]
      omega

theorem count_event (events : List SseEvent) (payload : Text) :
    events.count (.content payload) = (events.filterMap contentOf).count payload ∧
      events.count (.message payload) = (events.filterMap messageOf).count payload := by
  induction events with
  | nil => exact ⟨rfl, rfl⟩
  | cons event events ih =>
    cases event with
    | content p =>
      rw [List.filterMap_cons_some (f := contentOf) rfl, List.filterMap_cons_none (f := messageOf) rfl, List.count_cons,
        List.count_cons, List.count_cons, ih.1, ih.2]
      by_cases hp : p = payload <;> simp [hp]
    | message p =>
      rw [List.filterMap_cons_none (f := contentOf) rfl, List.filterMap_cons_some (f := messageOf) rfl, List.count_cons,
        List.count_cons, List.count_cons, ih.1, ih.2]
      by_cases hp : p = payload <;> simp [hp]

/-- Events with the same contents in order and the same messages in any order are the same up to their order. -/
theorem perm_of_counts {events events' : List SseEvent}
    (hcontent : events'.filterMap contentOf = events.filterMap contentOf)
    (hmessage : ∀ payload, (events'.filterMap messageOf).count payload = (events.filterMap messageOf).count payload) :
    events'.Perm events := by
  rw [List.perm_iff_count]
  intro event
  cases event with
  | content payload => rw [(count_event _ _).1, (count_event _ _).1, hcontent]
  | message payload => rw [(count_event _ _).2, (count_event _ _).2, hmessage]

/-- A frame of an event that is read, with a character outside of ASCII in its name or its payload. -/
def Marks (frame : Text) : Prop :=
  (eventOf frame).isSome ∧ ∃ event data, fieldsOf frame = (some event, some data) ∧ ¬ (IsAscii event ∧ IsAscii data)

/-- Where all characters outside of ASCII are marked, a frame loses its event or its payload gets marks. -/
theorem event_marked {frame frame' : Text} (h : Marked (·.toNat < 0x80) frame frame') :
    (eventOf frame').toList.length < (eventOf frame).toList.length ∨
      (eventOf frame').toList.length = (eventOf frame).toList.length ∧
        weight (eventOf frame).toList ≤ weight (eventOf frame').toList ∧
          (Marks frame → weight (eventOf frame).toList < weight (eventOf frame').toList) := by
  cases hevent' : eventOf frame' with
  | none =>
    cases hevent : eventOf frame with
    | none => exact .inr ⟨rfl, Nat.le_refl _, fun hmarks => by rw [Marks, hevent] at hmarks; cases hmarks.1⟩
    | some event => exact .inl Nat.zero_lt_one
  | some event' =>
    obtain ⟨name, data, data', hfields, hfields', hname, hdata, hnames⟩ := exists_event h hevent'
    have hcount : (trim data).count replacement ≤ (trim data').count replacement := by
      rw [Text.count_trim Text.isWhitespace_replacement, Text.count_trim Text.isWhitespace_replacement]
      exact hdata.count_le
    have hstrict (hmarks : Marks frame) : (trim data).count replacement < (trim data').count replacement := by
      obtain ⟨-, name₁, data₁, hfields₁, hnot⟩ := hmarks
      rw [hfields] at hfields₁
      cases hfields₁
      have hascii : IsAscii name := by
        by_contra hne
        exact absurd (hname.count_lt (by simpa [IsAscii] using hne)) (Nat.lt_irrefl _)
      have hchar : ∃ c ∈ data, 0x80 ≤ c.toNat := by
        have hdata' : ¬ IsAscii data := fun hdata => hnot ⟨hascii, hdata⟩
        simpa [IsAscii] using hdata'
      rw [Text.count_trim Text.isWhitespace_replacement, Text.count_trim Text.isWhitespace_replacement]
      exact hdata.count_lt hchar
    have hevents : ∃ event, eventOf frame = some event ∧ event.payload = trim data ∧ event'.payload = trim data' := by
      obtain ⟨name₁, data₁, hfields₁, hkind⟩ := eventOf_eq_some.1 hevent'
      rw [hfields'] at hfields₁
      cases hfields₁
      rcases hkind with ⟨hkind, rfl⟩ | ⟨hkind, rfl⟩
      · exact ⟨.content (trim data), eventOf_eq_some.2 ⟨name, data, hfields, .inl ⟨hkind, rfl⟩⟩, rfl, rfl⟩
      · exact ⟨.message (trim data), eventOf_eq_some.2 ⟨name, data, hfields, .inr ⟨hkind, rfl⟩⟩, rfl, rfl⟩
    obtain ⟨event, hevent, hpayload, hpayload'⟩ := hevents
    have hweight (event : SseEvent) : weight (some event).toList = event.payload.count replacement := Nat.add_zero _
    rw [hevent, hweight, hweight, hpayload, hpayload']
    exact .inr ⟨rfl, hcount, hstrict⟩

theorem weight_append (a b : List SseEvent) : weight (a ++ b) = weight a + weight b := by
  rw [weight, List.map_append, List.sum_append]
  rfl

theorem events_marked {fs fs' : List Text} (h : List.Forall₂ (Marked (·.toNat < 0x80)) fs fs') :
    (fs'.filterMap eventOf).length < (fs.filterMap eventOf).length ∨
      (fs'.filterMap eventOf).length = (fs.filterMap eventOf).length ∧
        weight (fs.filterMap eventOf) ≤ weight (fs'.filterMap eventOf) ∧
          ((∃ frame ∈ fs, Marks frame) → weight (fs.filterMap eventOf) < weight (fs'.filterMap eventOf)) := by
  have hcons (frame : Text) (fs : List Text) :
      (frame :: fs).filterMap eventOf = (eventOf frame).toList ++ fs.filterMap eventOf := by
    rw [List.filterMap_cons]
    cases eventOf frame <;> rfl
  induction h with
  | nil => exact .inr ⟨rfl, Nat.le_refl _, fun ⟨_, hmem, _⟩ => absurd hmem List.not_mem_nil⟩
  | @cons frame frame' fs fs' hframe _ ih =>
    rw [hcons, hcons, List.length_append, List.length_append, weight_append, weight_append]
    rcases event_marked hframe with hlt | ⟨hlen, hle, hstrict⟩
    · rcases ih with ihlt | ⟨ihlen, -, -⟩
      · exact .inl (by omega)
      · exact .inl (by omega)
    · rcases ih with ihlt | ⟨ihlen, ihle, ihstrict⟩
      · exact .inl (by omega)
      · refine .inr ⟨by omega, by omega, ?_⟩
        rintro ⟨frame₁, hmem, hmarks⟩
        rcases List.mem_cons.1 hmem with rfl | hmem
        · have := hstrict hmarks
          omega
        · have := ihstrict ⟨frame₁, hmem, hmarks⟩
          omega

theorem not_marks_of_perm {fs fs' : List Text} (h : List.Forall₂ (Marked (·.toNat < 0x80)) fs fs')
    (hperm : (fs'.filterMap eventOf).Perm (fs.filterMap eventOf)) : ∀ frame ∈ fs, ¬ Marks frame := by
  intro frame hmem hmarks
  have hweight : weight (fs'.filterMap eventOf) = weight (fs.filterMap eventOf) := (hperm.map _).sum_nat
  rcases events_marked h with hlt | ⟨-, -, hstrict⟩
  · exact absurd hperm.length_eq (by omega)
  · exact absurd (hstrict ⟨frame, hmem, hmarks⟩) (by omega)

/-! ## A parser that counts -/

/-- A parser that takes contents as texts, and counts how often a message comes. -/
def countOf (payload : Text) : Payloads where
  chatChunk _ := .error ""
  sseDelta payload := .ok ⟨some (String.ofList payload)⟩
  sseMessageDelta p := .ok ⟨some ⟨none, if p = payload then 1 else 0⟩⟩

def saidOf (payload : Text) : SseEvent → Said
  | .content p => ⟨some (String.ofList p), none⟩
  | .message p => ⟨none, some ⟨none, if p = payload then 1 else 0⟩⟩

def counted (payload : Text) (events : List SseEvent) : List Chunk :=
  (events.filterMap contentOf).map (fun p => Chunk.Delta (String.ofList p)) ++
    [.Done ⟨0, BitVec.ofNat 32 (min ((events.filterMap messageOf).count payload) (2 ^ 32 - 1))⟩]

theorem mapM_countOf (payload : Text) (events : List SseEvent) :
    events.mapM (SseEvent.said (countOf payload)) = some (events.map (saidOf payload)) := by
  have hsaid : SseEvent.said (countOf payload) = fun event => some (saidOf payload event) := by
    funext event
    cases event <;> rfl
  rw [hsaid]
  exact List.mapM_pure

theorem said_countOf (payload : Text) (events : List SseEvent) :
    ((events.map (saidOf payload)).filterMap Said.text).map Chunk.Delta ++
      [.Done (usageOf ((events.map (saidOf payload)).filterMap Said.usage))] = counted payload events := by
  have htexts : (events.map (saidOf payload)).filterMap Said.text = (events.filterMap contentOf).map String.ofList := by
    rw [List.filterMap_map, List.map_filterMap]
    refine congrArg (List.filterMap · events) (funext fun event => ?_)
    cases event <;> rfl
  have husages : (events.map (saidOf payload)).filterMap Said.usage =
      (events.filterMap messageOf).map fun p => ⟨none, if p = payload then 1 else 0⟩ := by
    rw [List.filterMap_map, List.map_filterMap]
    refine congrArg (List.filterMap · events) (funext fun event => ?_)
    cases event <;> rfl
  have hsum (messages : List Text) : (messages.map fun p => (if p = payload then 1 else 0 : BitVec 32).toNat).sum =
      messages.count payload := by
    induction messages with
    | nil => rfl
    | cons p messages ih =>
      rw [List.map_cons, List.sum_cons, ih, List.count_cons]
      by_cases hp : p = payload
      · rw [if_pos hp, if_pos (beq_iff_eq.2 hp), Nat.add_comm]
        rfl
      · rw [if_neg hp, if_neg (mt beq_iff_eq.1 hp), Nat.add_comm]
        rfl
  have hinputs (messages : List Text) : (messages.map fun p : Text =>
      (⟨none, if p = payload then 1 else 0⟩ : SseMessageDeltaUsage)).filterMap SseMessageDeltaUsage.input_tokens = [] :=
    List.filterMap_eq_nil_iff.2 (List.forall_mem_map.2 fun _ _ => rfl)
  rw [htexts, husages, usageOf, hinputs, List.map_map, List.map_map]
  have hcount := hsum (events.filterMap messageOf)
  rw [counted, ← hcount]
  rfl

theorem anthropicComplete_countOf (payload t : Text) : anthropicComplete (countOf payload) t =
    some (counted payload ((allFrames t).filterMap eventOf)) := by
  rw [anthropicComplete, mapM_countOf, Option.map_some, said_countOf]

theorem anthropicStream_countOf (payload : Text) (chunks : List (List UInt8)) :
    anthropicStream (countOf payload) (chunks.map .ok) =
      .ok (counted payload ((frames (chunks.flatMap fromUtf8Lossy)).1.filterMap eventOf)) := by
  rw [anthropicStream_eq, finish_run_said (mapM_countOf _ _), said_countOf]

theorem counted_eq {payload : Text} {events events' : List SseEvent}
    (h : counted payload events' = counted payload events) :
    events'.filterMap contentOf = events.filterMap contentOf ∧
      min ((events'.filterMap messageOf).count payload) (2 ^ 32 - 1) =
        min ((events.filterMap messageOf).count payload) (2 ^ 32 - 1) := by
  obtain ⟨hcontents, hdone⟩ := List.append_inj' h rfl
  have hinj : Function.Injective fun p : Text => Chunk.Delta (String.ofList p) :=
    fun _ _ h => String.ofList_injective (Chunk.Delta.inj h)
  refine ⟨List.map_injective_iff.2 hinj hcontents, ?_⟩
  have husage := (TokenUsage.mk.inj (Chunk.Done.inj (List.cons.inj hdone).1)).2
  have htoNat := congrArg BitVec.toNat husage
  rwa [BitVec.toNat_ofNat, BitVec.toNat_ofNat, Nat.mod_eq_of_lt (by omega), Nat.mod_eq_of_lt (by omega)] at htoNat

/-- How often a usage is reported. -/
def usageEvents (t : Text) : Nat :=
  (((allFrames t).filterMap eventOf).filterMap messageOf).length

theorem anthropicWhole_of_readsWhole {t : Text} (hlt : usageEvents t < 2 ^ 32)
    (h : ∀ serde, ReadsWhole (anthropicStream serde) (anthropicComplete serde t) t) : AnthropicWhole t := by
  have hwhole : (frames ([utf8 t].flatMap fromUtf8Lossy)).1 = (frames t).1 := by
    rw [List.flatMap_singleton, Text.fromUtf8Lossy_utf8]
  have hsingle : [utf8 t].flatten = utf8 t := List.append_nil _
  have hall : (allFrames t).filterMap eventOf = (frames t).1.filterMap eventOf ++ (eventOf (frames t).2).toList := by
    rw [allFrames, List.filterMap_append]
    cases hevent : eventOf (frames t).2 with
    | none => rw [List.filterMap_cons_none hevent]; rfl
    | some event => rw [List.filterMap_cons_some hevent]; rfl
  have hbound : (((frames t).1.filterMap eventOf).filterMap messageOf).length < 2 ^ 32 := by
    rw [usageEvents, hall, List.filterMap_append, List.length_append] at hlt
    omega
  constructor
  · have hmarked := (Text.marked_bytes t).frames.1
    generalize hbytes : (frames (((utf8 t).map ([·])).flatMap fromUtf8Lossy)).1 = fs' at hmarked
    have heq (payload : Text) := (h (countOf payload)).alike ((utf8 t).map ([·])) [utf8 t] (flatten_bytes _) hsingle
    simp only [anthropicStream_countOf, hwhole, hbytes, Except.ok.injEq] at heq
    have hcontent := (counted_eq (heq [])).1
    have hlength : (fs'.filterMap eventOf).length ≤ ((frames t).1.filterMap eventOf).length := by
      rcases events_marked hmarked with hlt | ⟨hle, -, -⟩
      · exact Nat.le_of_lt hlt
      · exact Nat.le_of_eq hle
    have hbound' : ((fs'.filterMap eventOf).filterMap messageOf).length < 2 ^ 32 := by
      have hadd := length_contents_add (fs'.filterMap eventOf)
      have hadd' := length_contents_add ((frames t).1.filterMap eventOf)
      rw [hcontent] at hadd
      omega
    have hperm := perm_of_counts hcontent fun payload => by
      have hmin := (counted_eq (heq payload)).2
      have hcount := List.count_le_length (a := payload) (l := (fs'.filterMap eventOf).filterMap messageOf)
      have hcount' := List.count_le_length (a := payload) (l := ((frames t).1.filterMap eventOf).filterMap messageOf)
      omega
    intro frame hmem hsome event data hfields
    by_contra hnot
    exact not_marks_of_perm hmarked hperm frame hmem ⟨hsome, event, data, hfields, hnot⟩
  · by_contra hne
    obtain ⟨event, hevent⟩ := Option.ne_none_iff_exists'.1 hne
    have heq (payload : Text) := (h (countOf payload)).whole _ (anthropicComplete_countOf payload t) [utf8 t] hsingle
    simp only [anthropicStream_countOf, hwhole, Except.ok.injEq, hall, hevent, Option.toList_some] at heq
    cases event with
    | content payload =>
      have hcontent := congrArg List.length (counted_eq (heq [])).1
      rw [List.filterMap_append, List.length_append] at hcontent
      exact absurd hcontent (by simp [contentOf])
    | message payload =>
      have hmin := (counted_eq (heq payload)).2
      have hcount := List.count_le_length (a := payload) (l := ((frames t).1.filterMap eventOf).filterMap messageOf)
      rw [usageEvents, hall, hevent, List.filterMap_append, List.length_append] at hlt
      have hlast : [SseEvent.message payload].filterMap messageOf = [payload] := rfl
      rw [Option.toList_some, hlast, List.length_singleton] at hlt
      rw [List.filterMap_append, hlast, List.count_append, List.count_singleton_self] at hmin
      omega

/-- Whatever the parser makes of the payloads, an OpenAI stream is read whole exactly when its data lines are ASCII and
none with a payload stands behind the last blank line; an Anthropic stream is when the same holds of its events, which
is exact below `2 ^ 32` reported usages. -/
theorem reads_whole_iff (t : Text) :
    ((∀ serde, ReadsWhole (openaiStream serde) (openaiComplete serde t) t) ↔ OpenaiWhole t) ∧
      (AnthropicWhole t → ∀ serde, ReadsWhole (anthropicStream serde) (anthropicComplete serde t) t) ∧
      (usageEvents t < 2 ^ 32 →
        (∀ serde, ReadsWhole (anthropicStream serde) (anthropicComplete serde t) t) → AnthropicWhole t) :=
  ⟨⟨fun h => openaiWhole_of_readsWhole (h echo), readsWhole_openai⟩, readsWhole_anthropic,
    anthropicWhole_of_readsWhole⟩

namespace Sample

def front : Text :=
  "\x7b\"choices\":[\x7b\"delta\":\x7b\"content\":\"".toList

def back : Text :=
  "\"\x7d\x7d]\x7d".toList

/-- A parser of payloads with one text in them. -/
def texts : Payloads where
  chatChunk payload :=
    match (stripPrefix front payload).bind fun rest => stripPrefix back.reverse rest.reverse with
    | some text => .ok ⟨[⟨some ⟨some (String.ofList text.reverse)⟩⟩], none⟩
    | none => .error "expected value"
  sseDelta _ := .error "expected value"
  sseMessageDelta _ := .error "expected value"

/-- A stream of one event. -/
def stream (text : Text) : Text :=
  "data: ".toList ++ (front ++ (text ++ (back ++ ['\n', '\n'])))

/-- The stream, cut within its `é`. -/
def cut : List (List UInt8) :=
  [utf8 ("data: ".toList ++ front) ++ [0xc3], [0xa9] ++ utf8 (back ++ ['\n', '\n'])]

end Sample

open Sample in
/-- A text that comes in two chunks has marks in place of the character that is cut. -/
theorem cut_character : ¬ ReadsWhole (openaiStream texts) (openaiComplete texts (stream ['é'])) (stream ['é']) := by
  intro h
  have heq := h.alike [utf8 (stream ['é'])] cut (List.append_nil _) (by decide +kernel)
  have hframes (text : Text) (hcut : cutFrame (stream text) = some ((stream text).dropLast.dropLast, [])) :
      (frames (stream text)).1 = [(stream text).dropLast.dropLast] := by
    rw [Text.frames_of_some hcut, Text.frames_of_none rfl]
  have hwhole : [utf8 (stream ['é'])].flatMap fromUtf8Lossy = stream ['é'] := by
    rw [List.flatMap_singleton, Text.fromUtf8Lossy_utf8]
  have hcut : cut.flatMap fromUtf8Lossy = stream [replacement, replacement] := by decide +kernel
  rw [openaiStream_eq, openaiStream_eq, hwhole, hcut, hframes _ (by decide +kernel),
    hframes _ (by decide +kernel)] at heq
  revert heq
  decide +kernel

end Cobrust.Router
