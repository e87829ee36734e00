import Cobrust.Text.Marker

/-!
# Replies of the debugger

`send_command` and `read_until_prompt` of `cobrust-dap/src/lldb_driver.rs`. The debugger reads input lines in order
and answers each with a text and a line that begins with the prompt; the stream is what it writes and nobody has
read. A call that runs into the timeout has read a part of the stream, and what it has read is lost.

* `read_reply`: at the boundary of a reply, a command gets the answer to its first line.
* `replies_paired`: when the text that each call returns is the output of its command.
-/

namespace Cobrust.Dap

open Text (IsMarker readUntil)

def LLDB_PROMPT : Text :=
  "(lldb)".toList

/-- A call with what the debugger answers to each line of the command, and what the call returns; nothing after the
timeout. -/
structure Call where
  command : Text
  outputs : List Text
  returned : Option Text

/-- The answers to the lines of a command, each with its prompt line. -/
def reply (afterPrompt : Text) (outputs : List Text) : Text :=
  outputs.flatMap fun output => output ++ (LLDB_PROMPT ++ (afterPrompt ++ ['\n']))

/-- The stream before and after a call. -/
inductive Step (afterPrompt : Text) : Text → Call → Text → Prop
  | ok (stream command : Text) (outputs : List Text) (text rest : Text)
      (hlines : outputs.length = command.count '\n' + 1)
      (hread : readUntil LLDB_PROMPT (stream ++ reply afterPrompt outputs) = some (text, rest)) :
      Step afterPrompt stream ⟨command, outputs, some text⟩ rest
  | timeout (stream command : Text) (outputs : List Text) (read rest : Text)
      (hlines : outputs.length = command.count '\n' + 1) (hstream : stream ++ reply afterPrompt outputs = read ++ rest)
      (hread : readUntil LLDB_PROMPT read = none) :
      Step afterPrompt stream ⟨command, outputs, none⟩ rest

/-- The calls so far, the last one first, each with a property of the ones before it, and the stream. -/
inductive Run (afterPrompt : Text) (P : List Call → Call → Prop) : List Call → Text → Prop
  | empty : Run afterPrompt P [] []
  | step {calls : List Call} {stream stream' : Text} {call : Call} (h : Run afterPrompt P calls stream)
      (hstep : Step afterPrompt stream call stream') (hcall : P calls call) : Run afterPrompt P (call :: calls) stream'

/-- A call that returns a text returns the output of its command. -/
def Call.Paired (call : Call) : Prop :=
  ∀ text, call.returned = some text → text = call.outputs.flatten

/-- The command is one line, and the prompt is not in its output. -/
structure Call.Framed (call : Call) : Prop where
  command : '\n' ∉ call.command
  outputs : ∀ output ∈ call.outputs, ¬ LLDB_PROMPT <:+: output

def Call.TimedOut (call : Call) : Prop :=
  call.returned = none

/-- The call is framed, and no call before it ran into the timeout. -/
structure Undisturbed (earlier : List Call) (call : Call) : Prop where
  framed : call.Framed
  earlier : ∀ c ∈ earlier, ¬ c.TimedOut

theorem prompt_isMarker : IsMarker LLDB_PROMPT where
  head := ⟨'(', "lldb)".toList, by decide, by decide⟩
  line := by decide

variable {afterPrompt stream stream' text rest : Text} {call : Call} {calls : List Call} {outputs : List Text}

theorem reply_cons (output : Text) (outputs : List Text) :
    reply afterPrompt (output :: outputs) =
      output ++ (LLDB_PROMPT ++ (afterPrompt ++ '\n' :: reply afterPrompt outputs)) := by
  simp [reply]

theorem read_reply {output : Text} (hafter : '\n' ∉ afterPrompt) (houtput : ¬ LLDB_PROMPT <:+: output) :
    readUntil LLDB_PROMPT (reply afterPrompt (output :: outputs)) = some (output, reply afterPrompt outputs) := by
  rw [reply_cons]
  exact Text.readUntil_append prompt_isMarker hafter houtput

/-- What is read of an answer with a prompt in it ends before the answer does. -/
theorem read_reply_cut {output text rest : Text} (houtput : LLDB_PROMPT <:+: output)
    (hread : readUntil LLDB_PROMPT (reply afterPrompt (output :: outputs)) = some (text, rest)) :
    text.length < output.length := by
  have hne : LLDB_PROMPT ≠ [] := by decide
  cases hbefore : Text.before LLDB_PROMPT output with
  | none => exact absurd houtput (Text.before_eq_none hbefore hne)
  | some u =>
    obtain ⟨⟨v, rfl⟩, hno⟩ := Text.before_eq_some hbefore
    -- the line of the first prompt ends in the answer or with its prompt line
    have hend : '\n' ∈ v ++ (LLDB_PROMPT ++ (afterPrompt ++ '\n' :: reply afterPrompt outputs)) := by simp
    obtain ⟨p, tail, hcut, hp⟩ := List.eq_append_cons_of_mem hend
    rw [reply_cons, List.append_assoc, List.append_assoc, hcut, Text.readUntil_append prompt_isMarker hp (hno hne)] at hread
    cases hread
    have hprompt : 0 < LLDB_PROMPT.length := List.length_pos_of_ne_nil hne
    simp only [List.length_append]
    omega

/-- Without timeouts and prompts in answers, every call leaves the stream empty. -/
theorem Run.stream_eq_nil (hafter : '\n' ∉ afterPrompt) (h : Run afterPrompt Undisturbed calls stream)
    (hcalls : ∀ c ∈ calls, ¬ c.TimedOut) : stream = [] ∧ ∀ c ∈ calls, c.Paired := by
  induction h with
  | empty => exact ⟨rfl, fun c hc => absurd hc List.not_mem_nil⟩
  | @step calls stream stream' call h hstep hcall ih =>
    obtain ⟨rfl, hpaired⟩ := ih hcall.earlier
    cases hstep with
    | ok command outputs text _ hlines hread =>
      obtain ⟨output, rfl⟩ : ∃ output, outputs = [output] := by
        rw [List.count_eq_zero.2 hcall.framed.command] at hlines
        exact List.length_eq_one_iff.1 hlines
      rw [List.nil_append, read_reply hafter (hcall.framed.outputs output (List.mem_singleton.2 rfl))] at hread
      cases hread
      refine ⟨rfl, fun c hc => ?_⟩
      rcases List.mem_cons.1 hc with rfl | hc
      · intro text htext
        cases htext
        simp
      · exact hpaired c hc
    | timeout => exact absurd rfl (hcalls _ List.mem_cons_self)

/-- The calls of such a run are paired, also the last one if it runs into the timeout. -/
theorem Run.paired (hafter : '\n' ∉ afterPrompt) (h : Run afterPrompt Undisturbed calls stream) :
    ∀ c ∈ calls, c.Paired := by
  cases h with
  | empty => exact fun c hc => absurd hc List.not_mem_nil
  | step h hstep hcall =>
    obtain ⟨rfl, hpaired⟩ := h.stream_eq_nil hafter hcall.earlier
    cases hstep with
    | ok command outputs text _ hlines hread =>
      have hrun := Run.step h (.ok _ command outputs text _ hlines hread) hcall
      refine (hrun.stream_eq_nil hafter fun c hc => ?_).2
      rcases List.mem_cons.1 hc with rfl | hc
      · exact fun htimeout => by cases htimeout
      · exact hcall.earlier c hc
    | timeout =>
      intro c hc
      rcases List.mem_cons.1 hc with rfl | hc
      · intro text htext
        cases htext
      · exact hpaired c hc

/-- A stream that holds a prompt line gives the next call what is before it. -/
theorem next_of_read {t r : Text} (h : readUntil LLDB_PROMPT stream = some (t, r)) :
    ∃ next stream', Step afterPrompt stream next stream' ∧ ¬ next.Paired := by
  refine ⟨⟨[], [t ++ ['x']], some t⟩, _, .ok stream [] _ t _ rfl (Text.readUntil_more h _), fun hpaired => ?_⟩
  have := congrArg List.length (hpaired t rfl)
  simp at this

/-- What is left unread is taken for a part of the next answer. -/
theorem next_of_rest (hafter : '\n' ∉ afterPrompt) (s : Text) :
    ∃ next stream', Step afterPrompt (s ++ ['\n']) next stream' ∧ ¬ next.Paired := by
  cases hread : readUntil LLDB_PROMPT (s ++ ['\n']) with
  | some read => exact next_of_read (t := read.1) (r := read.2) hread
  | none =>
    have hfree := Text.infix_free_of_readUntil prompt_isMarker hread
    refine ⟨⟨[], [[]], some (s ++ ['\n'])⟩, [], .ok _ [] _ _ _ rfl ?_, fun hpaired => ?_⟩
    · rw [reply_cons]
      exact Text.readUntil_append prompt_isMarker hafter hfree
    · have := hpaired _ rfl
      simp at this

theorem reply_eq_concat (hne : outputs ≠ []) : ∃ s, reply afterPrompt outputs = s ++ ['\n'] := by
  obtain ⟨front, output, rfl⟩ := List.eq_nil_or_concat outputs |>.resolve_left hne
  exact ⟨reply afterPrompt front ++ (output ++ (LLDB_PROMPT ++ afterPrompt)), by simp [reply]⟩

theorem broken_step (hafter : '\n' ∉ afterPrompt) (hstep : Step afterPrompt [] call stream')
    (hcall : ¬ call.Framed ∨ call.TimedOut) :
    ¬ call.Paired ∨ ∃ next stream'', Step afterPrompt stream' next stream'' ∧ ¬ next.Paired := by
  cases hstep with
  | timeout command outputs read _ hlines hstream hread =>
    have hne : outputs ≠ [] := by
      rintro rfl
      exact absurd hlines (by simp)
    obtain ⟨s, hs⟩ : ∃ s, reply afterPrompt outputs = s ++ ['\n'] := reply_eq_concat hne
    rw [List.nil_append, hs] at hstream
    refine .inr ?_
    rcases List.eq_nil_or_concat stream' with rfl | ⟨front, c, rfl⟩
    · -- the whole reply was read, so the reader did not wait
      obtain ⟨output, outputs, rfl⟩ := List.exists_cons_of_ne_nil hne
      rw [List.append_nil] at hstream
      rw [← hstream, ← hs] at hread
      by_cases houtput : LLDB_PROMPT <:+: output
      · have hfree := Text.infix_free_of_readUntil prompt_isMarker (hs ▸ hread)
        rw [← hs, reply_cons] at hfree
        exact absurd (houtput.trans (List.prefix_append output _).isInfix) hfree
      · rw [read_reply hafter houtput] at hread
        cases hread
    · rw [List.concat_eq_append] at hstream ⊢
      rw [← List.append_assoc] at hstream
      rw [← (List.append_inj' hstream rfl).2]
      exact next_of_rest hafter front
  | ok command outputs text _ hlines hread =>
    have hframed := hcall.resolve_right fun htimeout => by cases htimeout
    obtain ⟨output, outputs, rfl⟩ := List.exists_cons_of_ne_nil (l := outputs) (by
      rintro rfl
      exact absurd hlines (by simp))
    rw [List.nil_append] at hread
    by_cases houtput : LLDB_PROMPT <:+: output
    · refine .inl fun hpaired => ?_
      have hlt := read_reply_cut houtput hread
      have hlen := congrArg List.length (hpaired text rfl)
      rw [List.flatten_cons, List.length_append] at hlen
      omega
    · rw [read_reply hafter houtput] at hread
      cases hread
      cases outputs with
      | nil =>
        refine absurd ⟨?_, ?_⟩ hframed
        · rw [← List.count_eq_zero]
          simpa using hlines
        · intro o ho
          rwa [List.mem_singleton.1 ho]
      | cons output' outputs =>
        obtain ⟨s, hs⟩ : ∃ s, reply afterPrompt (output' :: outputs) = s ++ ['\n'] :=
          reply_eq_concat (List.cons_ne_nil _ _)
        rw [hs]
        exact .inr (next_of_rest hafter s)

/-- In runs of one-line commands whose output is free of the prompt, in which no call follows one that ran into the
timeout, each text that is returned is the output of its command. A call that is not like that, or that runs into
the timeout, returns a wrong text or is followed by a call that may. -/
theorem replies_paired (afterPrompt : Text) (hafter : '\n' ∉ afterPrompt) :
    (∀ calls stream, Run afterPrompt Undisturbed calls stream → ∀ c ∈ calls, c.Paired) ∧
    ∀ calls stream call stream', Run afterPrompt Undisturbed calls stream → (∀ c ∈ calls, ¬ c.TimedOut) →
      Step afterPrompt stream call stream' → ¬ call.Framed ∨ call.TimedOut →
        ¬ call.Paired ∨ ∃ next stream'', Step afterPrompt stream' next stream'' ∧ ¬ next.Paired := by
  refine ⟨fun _ _ h => h.paired hafter, fun calls stream call stream' h hcalls hstep hbroken => ?_⟩
  obtain ⟨rfl, -⟩ := h.stream_eq_nil hafter hcalls
  exact broken_step hafter hstep hbroken

theorem replies_paired_space :
    (⟨"frame info".toList, ["at fib.cb:7\n".toList], some "at fib.cb:7\n".toList⟩ : Call).Paired := by
  refine List.forall_mem_singleton.1
    ((replies_paired [' '] (by decide)).1 _ [] (.step .empty (.ok _ _ _ _ _ rfl rfl) ⟨⟨by decide, ?_⟩, ?_⟩))
  · intro output houtput
    rw [List.mem_singleton.1 houtput]
    decide
  · exact fun c hc => absurd hc List.not_mem_nil

/-- The output of a program with the prompt in it: the command gets the part before it, and the next one the rest. -/
theorem prompt_in_output :
    ∃ calls stream, Run [' '] (fun _ _ => True) calls stream ∧ ∃ c ∈ calls, ¬ c.Paired := by
  refine ⟨[⟨"process continue".toList, ["see (lldb) there\n".toList], some "see ".toList⟩], "(lldb) \n".toList,
    .step .empty (.ok _ _ _ _ _ rfl rfl) trivial, _, List.mem_singleton.2 rfl, fun hpaired => ?_⟩
  exact absurd (hpaired _ rfl) (by decide)

end Cobrust.Dap
