import Cobrust.Text.Marker

/-!
# Breakpoints of the debugger

`handle_set_breakpoints`, `handle_set_data_breakpoints` and `handle_set_exception_breakpoints` of
`cobrust-dap/src/handlers.rs`, with the calls of `lldb_driver.rs` that they make. The debugger is a table which every
set command that it carries out adds a row to; the driver has no command that takes one away.

* `handle_served`: what a request adds, and what it answers.
* `requests_replace_iff`: when the table holds the rows of the last request of each kind.
-/

namespace Cobrust.Dap

/-! ## The debugger -/

inductive Place
  | line (file : Text) (line : Nat)
  | symbol (name : Text)
  deriving DecidableEq

structure BreakpointRow where
  place : Place
  condition : Option Text
  autoContinue : Bool
  /-- What its command prints. -/
  logMessage : Option Text
  deriving DecidableEq

structure WatchpointRow where
  watched : Text
  access : Text
  condition : Option Text
  deriving DecidableEq

structure Debugger where
  breakpoints : List BreakpointRow
  watchpoints : List WatchpointRow
  deriving DecidableEq

/-- The commands that the handlers send. -/
inductive Command
  /-- `breakpoint set --file F --line N`, with `--condition C` or `--auto-continue 1` -/
  | setLine (file : Text) (line : Nat) (condition : Option Text) (autoContinue : Bool)
  /-- `breakpoint set --name S` -/
  | setName (symbol : Text)
  /-- `breakpoint command add --script-type python -o 'print("M")'` -/
  | addCommand (message : Text)
  /-- `watchpoint set variable -w A V` -/
  | setVariable (access watched : Text)

def Debugger.carryOut (d : Debugger) : Command → Debugger
  | .setLine file line condition autoContinue =>
    { d with breakpoints := d.breakpoints ++ [⟨.line file line, condition, autoContinue, none⟩] }
  | .setName symbol => { d with breakpoints := d.breakpoints ++ [⟨.symbol symbol, none, false, none⟩] }
  | .addCommand message =>
    -- without a number the command is given to the breakpoint that was set last
    match d.breakpoints.getLast? with
    | some row => { d with breakpoints := d.breakpoints.dropLast ++ [{ row with logMessage := some message }] }
    | none => d
  | .setVariable access watched => { d with watchpoints := d.watchpoints ++ [⟨watched, access, none⟩] }

inductive DapError
  | io
  | lldbTimeout
  | notSpawned

/-- What the driver reads after a command, and whether the debugger has carried it out. -/
structure Answer where
  stdout : Except DapError Text
  done : Bool

abbrev Driver := EStateM DapError Debugger

def sendCommand (command : Command) (answer : Answer) : Driver Text := fun d =>
  let d' := if answer.done then d.carryOut command else d
  match answer.stdout with
  | .ok text => .ok text d'
  | .error e => .error e d'

/-! ## The driver -/

structure Source where
  name : Option Text
  path : Option Text
  deriving DecidableEq

structure Breakpoint where
  id : Option Int64
  verified : Bool
  message : Option Text
  source : Option Source
  line : Option Nat

section Regex

-- the characters of `\d`
variable (isDecimal : Char → Bool)

/-- The digits after a word and blanks, if `tail` follows them. -/
def captureAt (word tail s : Text) : Option Text := do
  let rest ← if word.isPrefixOf s then some (s.drop word.length) else none
  let digits := rest.dropWhile Text.isWhitespace
  let number := digits.takeWhile isDecimal
  if Text.isWhitespace (rest.headD 'x') && number ≠ [] && tail.isPrefixOf (digits.dropWhile isDecimal) then some number
  else none

/-- The first match of `word\s+(\d+)tail`. -/
def capture (word tail : Text) : Text → Option Text
  | [] => none
  | c :: s => captureAt isDecimal word tail (c :: s) <|> capture word tail s

end Regex

def firstLine (stdout : Text) : Text :=
  (Text.lines stdout).head?.getD []

variable {isDecimal : Char → Bool}

def parseBreakpoint (isDecimal : Char → Bool) (stdout file : Text) (line : Nat) : Breakpoint :=
  match capture isDecimal "Breakpoint".toList ":".toList stdout with
  | some number => ⟨some ((Text.parseInt64 number).getD 0), true, none, some ⟨some file, some file⟩, some line⟩
  | none => ⟨none, false, some (firstLine stdout), some ⟨some file, some file⟩, some line⟩

def setBreakpoint (isDecimal : Char → Bool) (file : Text) (line : Nat) (set : Answer) : Driver Breakpoint := do
  let stdout ← sendCommand (.setLine file line none false) set
  return parseBreakpoint isDecimal stdout file line

def setLogBreakpoint (isDecimal : Char → Bool) (file : Text) (line : Nat) (message : Text) (set add : Answer) :
    Driver Breakpoint := do
  let stdout ← sendCommand (.setLine file line none true) set
  let bp := parseBreakpoint isDecimal stdout file line
  -- also if no breakpoint was set
  let _ ← sendCommand (.addCommand message) add
  return if bp.verified then { bp with message := some ("logpoint: ".toList ++ message) } else bp

def setConditionalBreakpoint (isDecimal : Char → Bool) (file : Text) (line : Nat) (condition : Text) (set : Answer) :
    Driver Breakpoint := do
  let stdout ← sendCommand (.setLine file line (some condition) false) set
  let bp := parseBreakpoint isDecimal stdout file line
  return if bp.verified then { bp with message := some ("condition: ".toList ++ condition) } else bp

def accessArg : Option Text → Option Text
  | none => some "write".toList
  | some access =>
    if access = "write".toList then some "write".toList
    else if access = "read".toList then some "read".toList
    else if access = "readWrite".toList then some "read_write".toList
    else none

def parseWatchpoint (isDecimal : Char → Bool) (stdout watched arg : Text) : Breakpoint :=
  let verified := (Text.before "Watchpoint created".toList stdout).isSome
  let id := (capture isDecimal "Watchpoint".toList [] stdout).bind Text.parseInt64
  let message := if verified then "watchpoint: ".toList ++ watched ++ (" (".toList ++ arg ++ ")".toList)
    else firstLine stdout
  ⟨id, verified, some message, none, none⟩

def setWatchpoint (isDecimal : Char → Bool) (watched : Text) (access : Option Text) (set : Answer) :
    Driver Breakpoint :=
  match accessArg access with
  | none =>
    return ⟨none, false, some ("unknown watchpoint access '".toList ++ access.getD [] ++ "'".toList), none, none⟩
  | some arg => do
    let stdout ← sendCommand (.setVariable arg watched) set
    return parseWatchpoint isDecimal stdout watched arg

def symbolOf (filter : Text) : Option Text :=
  if filter = "panic".toList then some "__cobrust_panic".toList
  else if filter = "result_err".toList then some "__cobrust_result_err_panic".toList
  else if filter = "unreachable".toList then some "core::intrinsics::unreachable_internal".toList
  else none

def parseException (isDecimal : Char → Bool) (stdout filter symbol : Text) : Breakpoint :=
  let bp := parseBreakpoint isDecimal stdout symbol 0
  let bp :=
    if (Text.before "no locations".toList stdout).isSome || (Text.before "pending".toList stdout).isSome then
      { bp with
        verified := false
        message := some ("exception filter '".toList ++ filter ++ ("' symbol '".toList ++ symbol ++
          "' not emitted in current build".toList)) }
    else if bp.verified then
      { bp with message := some ("exception filter: ".toList ++ filter ++ (" (symbol: ".toList ++ symbol ++ ")".toList)) }
    else bp
  { bp with source := none, line := none }

def setExceptionBreakpoint (isDecimal : Char → Bool) (filter : Text) (set : Answer) : Driver Breakpoint :=
  match symbolOf filter with
  | none => return ⟨none, false, some ("unknown exception filter '".toList ++ filter ++ "'".toList), none, none⟩
  | some symbol => do
    let stdout ← sendCommand (.setName symbol) set
    return parseException isDecimal stdout filter symbol

/-! ## The handlers -/

structure SourceBreakpoint where
  line : Nat
  condition : Option Text
  logMessage : Option Text

structure DataBreakpoint where
  dataId : Text
  accessType : Option Text
  condition : Option Text

/-- A breakpoint that is asked for, with the answers to its set command and to the command that is added to it. -/
structure AskedLine where
  entry : SourceBreakpoint
  set : Answer
  add : Answer

structure AskedData where
  entry : DataBreakpoint
  set : Answer

structure AskedFilter where
  filter : Text
  set : Answer

inductive Request
  | setBreakpoints (source : Source) (asked : List AskedLine)
  | setDataBreakpoints (asked : List AskedData)
  | setExceptionBreakpoints (asked : List AskedFilter)

def Source.file (source : Source) : Text :=
  (source.path.or source.name).getD "<unknown>".toList

def handleSetBreakpoints (isDecimal : Char → Bool) (source : Source) (asked : List AskedLine) :
    Driver (List Breakpoint) :=
  asked.mapM fun a =>
    match a.entry.logMessage, a.entry.condition with
    | some message, _ => setLogBreakpoint isDecimal source.file a.entry.line message a.set a.add
    | none, some condition => setConditionalBreakpoint isDecimal source.file a.entry.line condition a.set
    | none, none => setBreakpoint isDecimal source.file a.entry.line a.set

def handleSetDataBreakpoints (isDecimal : Char → Bool) (asked : List AskedData) : Driver (List Breakpoint) :=
  asked.mapM fun a => setWatchpoint isDecimal a.entry.dataId a.entry.accessType a.set

def handleSetExceptionBreakpoints (isDecimal : Char → Bool) (asked : List AskedFilter) : Driver (List Breakpoint) :=
  asked.mapM fun a => setExceptionBreakpoint isDecimal a.filter a.set

def handle (isDecimal : Char → Bool) : Request → Driver (List Breakpoint)
  | .setBreakpoints source asked => handleSetBreakpoints isDecimal source asked
  | .setDataBreakpoints asked => handleSetDataBreakpoints isDecimal asked
  | .setExceptionBreakpoints asked => handleSetExceptionBreakpoints isDecimal asked

/-- The debugger after the requests, the last one first. -/
def debuggerAfter (isDecimal : Char → Bool) : List Request → Debugger
  | [] => ⟨[], []⟩
  | request :: earlier =>
    match handle isDecimal request (debuggerAfter isDecimal earlier) with
    | .ok _ d => d
    | .error _ d => d

/-! ## Statements -/

def Place.inFile (file : Text) : Place → Bool
  | .line f _ => f = file
  | .symbol _ => false

def Place.isSymbol : Place → Bool
  | .line _ _ => false
  | .symbol _ => true

def Debugger.linesOf (d : Debugger) (file : Text) : List BreakpointRow :=
  d.breakpoints.filter (·.place.inFile file)

def Debugger.symbols (d : Debugger) : List BreakpointRow :=
  d.breakpoints.filter (·.place.isSymbol)

/-- The row that is asked for, if the debugger accepts it. -/
def AskedLine.row (file : Text) (a : AskedLine) : Option BreakpointRow :=
  if a.set.done then some ⟨.line file a.entry.line, a.entry.condition, a.entry.logMessage.isSome, a.entry.logMessage⟩
  else none

def AskedData.row (a : AskedData) : Option WatchpointRow :=
  (accessArg a.entry.accessType).bind fun access =>
    if a.set.done then some ⟨a.entry.dataId, access, a.entry.condition⟩ else none

def AskedFilter.row (a : AskedFilter) : Option BreakpointRow :=
  (symbolOf a.filter).bind fun symbol => if a.set.done then some ⟨.symbol symbol, none, false, none⟩ else none

/-- The source breakpoints of a file, if the request is one about that file. -/
def Request.lineRows (file : Text) : Request → Option (List BreakpointRow)
  | .setBreakpoints source asked => if source.file = file then some (asked.filterMap (·.row file)) else none
  | _ => none

def Request.watchRows : Request → Option (List WatchpointRow)
  | .setDataBreakpoints asked => some (asked.filterMap (·.row))
  | _ => none

def Request.symbolRows : Request → Option (List BreakpointRow)
  | .setExceptionBreakpoints asked => some (asked.filterMap (·.row))
  | _ => none

/-- The debugger holds the rows of the last request of each kind. -/
structure Replaced (isDecimal : Char → Bool) (requests : List Request) : Prop where
  lines : ∀ file,
    (debuggerAfter isDecimal requests).linesOf file = (requests.findSome? (·.lineRows file)).getD []
  watchpoints : (debuggerAfter isDecimal requests).watchpoints = (requests.findSome? (·.watchRows)).getD []
  symbols : (debuggerAfter isDecimal requests).symbols = (requests.findSome? (·.symbolRows)).getD []

/-- The message of the entry holds the text. -/
def Breakpoint.Shows (bp : Breakpoint) (text : Text) : Prop :=
  text <:+: bp.message.getD []

structure AskedLine.Listed (file : Text) (a : AskedLine) (bp : Breakpoint) : Prop where
  source : bp.source = some ⟨some file, some file⟩
  line : bp.line = some a.entry.line
  condition : ∀ text ∈ a.entry.condition, bp.Shows text
  logMessage : ∀ text ∈ a.entry.logMessage, bp.Shows text

structure AskedData.Listed (a : AskedData) (bp : Breakpoint) : Prop where
  dataId : bp.verified = true → bp.Shows a.entry.dataId
  condition : ∀ text ∈ a.entry.condition, bp.Shows text

def AskedFilter.Listed (a : AskedFilter) (bp : Breakpoint) : Prop :=
  bp.verified = true → bp.Shows a.filter

/-- One entry for each breakpoint of the request, in its order. -/
def Request.Listed : Request → List Breakpoint → Prop
  | .setBreakpoints source asked, bps => List.Forall₂ (·.Listed source.file) asked bps
  | .setDataBreakpoints asked, bps => List.Forall₂ (·.Listed) asked bps
  | .setExceptionBreakpoints asked, bps => List.Forall₂ (·.Listed) asked bps

/-- The last request is answered with its entries. -/
def Answered (isDecimal : Char → Bool) : List Request → Prop
  | [] => True
  | request :: earlier =>
    ∃ bps d, handle isDecimal request (debuggerAfter isDecimal earlier) = .ok bps d ∧ request.Listed bps

/-- The driver reads a text after the command. -/
def Answer.Read (a : Answer) : Prop :=
  ∃ text, a.stdout = .ok text

/-- The debugger says that it has set a breakpoint. -/
def Answer.Confirmed (isDecimal : Char → Bool) (a : Answer) : Prop :=
  ∃ text number, a.stdout = .ok text ∧ capture isDecimal "Breakpoint".toList ":".toList text = some number

/-- A condition and a log message are not asked for together, and where one is, the debugger accepts it. -/
structure AskedLine.Served (isDecimal : Char → Bool) (a : AskedLine) : Prop where
  read : a.set.Read
  condition : ∀ text ∈ a.entry.condition, a.set.Confirmed isDecimal ∧ a.entry.logMessage = none
  logMessage : ∀ text ∈ a.entry.logMessage,
    a.set.Confirmed isDecimal ∧ a.set.done = true ∧ a.add.Read ∧ a.add.done = true

structure AskedData.Served (a : AskedData) : Prop where
  read : (accessArg a.entry.accessType).isSome = true → a.set.Read
  condition : a.entry.condition = none

def AskedFilter.Served (a : AskedFilter) : Prop :=
  (symbolOf a.filter).isSome = true → a.set.Read

def Request.Served (isDecimal : Char → Bool) : Request → Prop
  | .setBreakpoints _ asked => ∀ a ∈ asked, a.Served isDecimal
  | .setDataBreakpoints asked => ∀ a ∈ asked, a.Served
  | .setExceptionBreakpoints asked => ∀ a ∈ asked, a.Served

/-- Nothing of the kind of the request is in the debugger. -/
def Request.Fresh : Request → Debugger → Prop
  | .setBreakpoints source _, d => d.linesOf source.file = []
  | .setDataBreakpoints _, d => d.watchpoints = []
  | .setExceptionBreakpoints _, d => d.symbols = []

section Growing

variable {R α : Type} (requests : List R) (rows : R → Option (List α)) (view : List R → List α)

/-- A view which each request adds its rows to holds those of the last one if and only if it is empty whenever a
request comes that has rows. -/
theorem view_last_iff (hnil : view [] = [])
    (hcons : ∀ r earlier, r :: earlier <:+ requests → view (r :: earlier) = view earlier ++ (rows r).getD []) :
    (∀ t, t <:+ requests → view t = (t.findSome? rows).getD []) ↔
      ∀ r earlier, r :: earlier <:+ requests → (rows r).isSome = true → view earlier = [] := by
  constructor
  · intro h r earlier hsuffix hrows
    obtain ⟨x, hx⟩ := Option.isSome_iff_exists.1 hrows
    have hlast := h _ hsuffix
    rw [hcons r earlier hsuffix, List.findSome?_cons_of_isSome hrows, hx] at hlast
    exact List.append_left_eq_self.1 hlast
  · intro h t
    induction t with
    | nil => exact fun _ => hnil
    | cons r earlier ih =>
      intro hsuffix
      rw [hcons r earlier hsuffix]
      cases hrows : rows r with
      | none =>
        rw [Option.getD_none, List.append_nil, List.findSome?_cons_of_isNone (by rw [hrows]; rfl)]
        exact ih ((List.suffix_cons r earlier).trans hsuffix)
      | some x =>
        rw [h r earlier hsuffix (by rw [hrows]; rfl), List.findSome?_cons_of_isSome (by rw [hrows]; rfl), hrows]
        rfl

end Growing

/-! ## What a request does -/

variable {file : Text} {d : Debugger} {requests : List Request}

/-- A handler's loop: each entry adds its row and gives its element of the response. -/
theorem mapM_ok {A B C : Type} {f : A → Driver B} {row : A → Option C} {listed : A → B → Prop}
    (add : Debugger → List C → Debugger) (hadd : ∀ d xs ys, add (add d xs) ys = add d (xs ++ ys))
    (hnil : ∀ d, add d [] = d) (asked : List A)
    (hf : ∀ a ∈ asked, ∀ d, ∃ b, f a d = .ok b (add d (row a).toList) ∧ listed a b) (d : Debugger) :
    ∃ bs, asked.mapM f d = .ok bs (add d (asked.filterMap row)) ∧ List.Forall₂ listed asked bs := by
  induction asked generalizing d with
  | nil => exact ⟨[], by rw [List.filterMap_nil, hnil]; rfl, .nil⟩
  | cons a asked ih =>
    obtain ⟨b, hb, hlisted⟩ := hf a List.mem_cons_self d
    obtain ⟨bs, hbs, hrest⟩ := ih (fun a ha => hf a (List.mem_cons_of_mem _ ha)) (add d (row a).toList)
    refine ⟨b :: bs, ?_, .cons hlisted hrest⟩
    have hrows : (a :: asked).filterMap row = (row a).toList ++ asked.filterMap row := by
      cases h : row a <;> simp [h]
    rw [List.mapM_cons, hrows, ← hadd]
    simp only [bind, EStateM.bind, hb, hbs]
    rfl

def Debugger.addBreakpoints (d : Debugger) (rows : List BreakpointRow) : Debugger :=
  { d with breakpoints := d.breakpoints ++ rows }

def Debugger.addWatchpoints (d : Debugger) (rows : List WatchpointRow) : Debugger :=
  { d with watchpoints := d.watchpoints ++ rows }

theorem addBreakpoints_nil (d : Debugger) : d.addBreakpoints [] = d := by
  rw [Debugger.addBreakpoints, List.append_nil]

theorem addBreakpoints_append (d : Debugger) (xs ys : List BreakpointRow) :
    (d.addBreakpoints xs).addBreakpoints ys = d.addBreakpoints (xs ++ ys) := by
  simp only [Debugger.addBreakpoints, List.append_assoc]

theorem addWatchpoints_nil (d : Debugger) : d.addWatchpoints [] = d := by
  rw [Debugger.addWatchpoints, List.append_nil]

theorem addWatchpoints_append (d : Debugger) (xs ys : List WatchpointRow) :
    (d.addWatchpoints xs).addWatchpoints ys = d.addWatchpoints (xs ++ ys) := by
  simp only [Debugger.addWatchpoints, List.append_assoc]

theorem parseBreakpoint_source (isDecimal : Char → Bool) (stdout file : Text) (line : Nat) :
    (parseBreakpoint isDecimal stdout file line).source = some ⟨some file, some file⟩ ∧
      (parseBreakpoint isDecimal stdout file line).line = some line := by
  unfold parseBreakpoint
  split <;> exact ⟨rfl, rfl⟩

theorem parseBreakpoint_verified {stdout number : Text} {line : Nat}
    (h : capture isDecimal "Breakpoint".toList ":".toList stdout = some number) :
    (parseBreakpoint isDecimal stdout file line).verified = true := by
  rw [parseBreakpoint, h]

/-- A call that sends one command and reads its answer. -/
theorem send_ok {command : Command} {answer : Answer} {stdout : Text} (hread : answer.stdout = .ok stdout)
    (parse : Text → Breakpoint) {d d' : Debugger} (hd : (if answer.done then d.carryOut command else d) = d') :
    (do return parse (← sendCommand command answer) : Driver Breakpoint) d = .ok (parse stdout) d' := by
  simp only [bind, EStateM.bind, sendCommand, hread, hd]
  rfl

theorem setBreakpoint_ok (isDecimal : Char → Bool) (file : Text) (line : Nat) (d : Debugger) {set : Answer}
    (hread : set.Read) :
    ∃ bp, setBreakpoint isDecimal file line set d =
      .ok bp (d.addBreakpoints (if set.done then [⟨.line file line, none, false, none⟩] else [])) ∧
      bp.source = some ⟨some file, some file⟩ ∧ bp.line = some line := by
  obtain ⟨stdout, hread⟩ := hread
  refine ⟨parseBreakpoint isDecimal stdout file line, ?_, parseBreakpoint_source isDecimal stdout file line⟩
  exact send_ok hread _ (by cases set.done <;> simp [Debugger.addBreakpoints, Debugger.carryOut])

theorem setConditionalBreakpoint_ok (file : Text) (line : Nat) (d : Debugger) {set : Answer} {condition : Text}
    (hset : set.Confirmed isDecimal) :
    ∃ bp, setConditionalBreakpoint isDecimal file line condition set d =
      .ok bp (d.addBreakpoints (if set.done then [⟨.line file line, some condition, false, none⟩] else [])) ∧
      bp.source = some ⟨some file, some file⟩ ∧ bp.line = some line ∧ bp.Shows condition := by
  obtain ⟨stdout, number, hread, hcapture⟩ := hset
  obtain ⟨hsource, hline⟩ := parseBreakpoint_source isDecimal stdout file line
  refine ⟨{ parseBreakpoint isDecimal stdout file line with message := some ("condition: ".toList ++ condition) },
    ?_, hsource, hline, ?_⟩
  · simp only [setConditionalBreakpoint, bind, EStateM.bind, sendCommand, hread,
      parseBreakpoint_verified hcapture, if_true]
    cases set.done <;> simp [Debugger.addBreakpoints, Debugger.carryOut, pure, EStateM.pure]
  · exact (List.suffix_append _ condition).isInfix

theorem setLogBreakpoint_ok (file : Text) (line : Nat) (d : Debugger) {set add : Answer} {message : Text}
    (hset : set.Confirmed isDecimal)
    (hdone : set.done = true) (hadd : add.Read) (haddDone : add.done = true) :
    ∃ bp, setLogBreakpoint isDecimal file line message set add d =
      .ok bp (d.addBreakpoints [⟨.line file line, none, true, some message⟩]) ∧
      bp.source = some ⟨some file, some file⟩ ∧ bp.line = some line ∧ bp.Shows message := by
  obtain ⟨stdout, number, hread, hcapture⟩ := hset
  obtain ⟨text, hadd⟩ := hadd
  obtain ⟨hsource, hline⟩ := parseBreakpoint_source isDecimal stdout file line
  refine ⟨{ parseBreakpoint isDecimal stdout file line with message := some ("logpoint: ".toList ++ message) },
    ?_, hsource, hline, ?_⟩
  · simp only [setLogBreakpoint, bind, EStateM.bind, sendCommand, hread, hadd, hdone, haddDone,
      parseBreakpoint_verified hcapture, if_true]
    simp [Debugger.addBreakpoints, Debugger.carryOut, pure, EStateM.pure]
  · exact (List.suffix_append _ message).isInfix

theorem handleLine_ok (file : Text) {a : AskedLine} (h : a.Served isDecimal) (d : Debugger) :
    ∃ bp, (match a.entry.logMessage, a.entry.condition with
      | some message, _ => setLogBreakpoint isDecimal file a.entry.line message a.set a.add
      | none, some condition => setConditionalBreakpoint isDecimal file a.entry.line condition a.set
      | none, none => setBreakpoint isDecimal file a.entry.line a.set) d =
        .ok bp (d.addBreakpoints (a.row file).toList) ∧ a.Listed file bp := by
  cases hlog : a.entry.logMessage with
  | some message =>
    obtain ⟨hset, hdone, hadd, haddDone⟩ := h.logMessage message hlog
    have hcondition : a.entry.condition = none := by
      cases hcondition : a.entry.condition with
      | none => rfl
      | some text => exact absurd (h.condition text hcondition).2 (by rw [hlog]; exact Option.some_ne_none _)
    obtain ⟨bp, hbp, hsource, hline, hshows⟩ := setLogBreakpoint_ok file a.entry.line d hset hdone hadd haddDone
    refine ⟨bp, ?_, hsource, hline, by simp [hcondition], by simpa [hlog] using hshows⟩
    simpa [AskedLine.row, hdone, hlog, hcondition] using hbp
  | none =>
    cases hcondition : a.entry.condition with
    | some condition =>
      obtain ⟨bp, hbp, hsource, hline, hshows⟩ := setConditionalBreakpoint_ok file a.entry.line d
        (h.condition condition hcondition).1
      refine ⟨bp, ?_, hsource, hline, by simpa [hcondition] using hshows, by simp [hlog]⟩
      cases hdone : a.set.done <;> simpa [AskedLine.row, hdone, hlog, hcondition] using hbp
    | none =>
      obtain ⟨bp, hbp, hsource, hline⟩ := setBreakpoint_ok isDecimal file a.entry.line d h.read
      refine ⟨bp, ?_, hsource, hline, by simp [hcondition], by simp [hlog]⟩
      cases hdone : a.set.done <;> simpa [AskedLine.row, hdone, hlog, hcondition] using hbp

theorem parseWatchpoint_shows (stdout watched arg : Text)
    (h : (parseWatchpoint isDecimal stdout watched arg).verified = true) :
    (parseWatchpoint isDecimal stdout watched arg).Shows watched := by
  have hmessage : (parseWatchpoint isDecimal stdout watched arg).message =
      some ("watchpoint: ".toList ++ watched ++ (" (".toList ++ arg ++ ")".toList)) :=
    congrArg some (if_pos h)
  rw [Breakpoint.Shows, hmessage]
  exact List.infix_append _ watched _

theorem parseException_shows (stdout filter symbol : Text)
    (h : (parseException isDecimal stdout filter symbol).verified = true) :
    (parseException isDecimal stdout filter symbol).Shows filter := by
  have hmessage : (parseException isDecimal stdout filter symbol).message =
      some ("exception filter: ".toList ++ filter ++ (" (symbol: ".toList ++ symbol ++ ")".toList)) := by
    unfold parseException at h ⊢
    dsimp only at h ⊢
    by_cases hpending :
        ((Text.before "no locations".toList stdout).isSome || (Text.before "pending".toList stdout).isSome) = true
    · rw [if_pos hpending] at h
      cases h
    · rw [if_neg hpending] at h ⊢
      by_cases hverified : (parseBreakpoint isDecimal stdout symbol 0).verified = true
      · rw [if_pos hverified]
      · rw [if_neg hverified] at h
        exact absurd h hverified
  rw [Breakpoint.Shows, hmessage]
  exact List.infix_append _ filter _

theorem setWatchpoint_ok {a : AskedData} (h : a.Served) (d : Debugger) :
    ∃ bp, setWatchpoint isDecimal a.entry.dataId a.entry.accessType a.set d =
      .ok bp (d.addWatchpoints a.row.toList) ∧ a.Listed bp := by
  have hcondition : ∀ bp : Breakpoint, ∀ text ∈ a.entry.condition, bp.Shows text := by simp [h.condition]
  unfold setWatchpoint AskedData.row
  cases haccess : accessArg a.entry.accessType with
  | none =>
    refine ⟨⟨none, false, some ("unknown watchpoint access '".toList ++ a.entry.accessType.getD [] ++ "'".toList), none,
      none⟩, ?_, ⟨fun hverified => absurd hverified Bool.false_ne_true, hcondition _⟩⟩
    rw [Debugger.addWatchpoints, Option.bind_none, Option.toList_none, List.append_nil]
    rfl
  | some access =>
    obtain ⟨stdout, hread⟩ := h.read (by rw [haccess]; rfl)
    refine ⟨parseWatchpoint isDecimal stdout a.entry.dataId access, ?_,
      parseWatchpoint_shows stdout a.entry.dataId access, hcondition _⟩
    rw [h.condition]
    exact send_ok hread _ (by cases a.set.done <;> simp [Debugger.addWatchpoints, Debugger.carryOut])

theorem setExceptionBreakpoint_ok {a : AskedFilter} (h : a.Served) (d : Debugger) :
    ∃ bp, setExceptionBreakpoint isDecimal a.filter a.set d = .ok bp (d.addBreakpoints a.row.toList) ∧
      a.Listed bp := by
  unfold setExceptionBreakpoint AskedFilter.row
  cases hsymbol : symbolOf a.filter with
  | none =>
    refine ⟨⟨none, false, some ("unknown exception filter '".toList ++ a.filter ++ "'".toList), none, none⟩, ?_,
      fun hverified => absurd hverified Bool.false_ne_true⟩
    rw [Debugger.addBreakpoints, Option.bind_none, Option.toList_none, List.append_nil]
    rfl
  | some symbol =>
    obtain ⟨stdout, hread⟩ := h (by rw [hsymbol]; rfl)
    refine ⟨parseException isDecimal stdout a.filter symbol, ?_, parseException_shows stdout a.filter symbol⟩
    exact send_ok hread _ (by cases a.set.done <;> simp [Debugger.addBreakpoints, Debugger.carryOut])

theorem linesOf_addBreakpoints (d : Debugger) (rows : List BreakpointRow) (file : Text) :
    (d.addBreakpoints rows).linesOf file = d.linesOf file ++ rows.filter (·.place.inFile file) :=
  List.filter_append d.breakpoints rows

theorem symbols_addBreakpoints (d : Debugger) (rows : List BreakpointRow) :
    (d.addBreakpoints rows).symbols = d.symbols ++ rows.filter (·.place.isSymbol) :=
  List.filter_append d.breakpoints rows

theorem place_of_line {asked : List AskedLine} {row : BreakpointRow} (h : row ∈ asked.filterMap (·.row file)) :
    ∃ line, row.place = .line file line := by
  obtain ⟨a, -, ha⟩ := List.mem_filterMap.1 h
  rw [AskedLine.row] at ha
  split at ha
  · cases ha
    exact ⟨a.entry.line, rfl⟩
  · cases ha

theorem place_of_filter {asked : List AskedFilter} {row : BreakpointRow} (h : row ∈ asked.filterMap (·.row)) :
    ∃ symbol, row.place = .symbol symbol := by
  obtain ⟨a, -, ha⟩ := List.mem_filterMap.1 h
  obtain ⟨symbol, -, ha⟩ := Option.bind_eq_some_iff.1 ha
  split at ha
  · cases ha
    exact ⟨symbol, rfl⟩
  · cases ha

/-- What a request adds to the debugger, kind by kind, and what it answers. -/
theorem handle_served {request : Request} (h : request.Served isDecimal) (d : Debugger) :
    ∃ bps d', handle isDecimal request d = .ok bps d' ∧ request.Listed bps ∧
      (∀ file, d'.linesOf file = d.linesOf file ++ (request.lineRows file).getD []) ∧
      d'.watchpoints = d.watchpoints ++ request.watchRows.getD [] ∧
      d'.symbols = d.symbols ++ request.symbolRows.getD [] := by
  cases request with
  | setBreakpoints source asked =>
    obtain ⟨bps, hbps, hlisted⟩ := mapM_ok Debugger.addBreakpoints addBreakpoints_append addBreakpoints_nil asked
      (fun a ha d => handleLine_ok source.file (h a ha) d) d
    refine ⟨bps, _, hbps, hlisted, fun file => ?_, (List.append_nil _).symm, ?_⟩
    · rw [linesOf_addBreakpoints]
      refine congrArg _ ?_
      by_cases hfile : source.file = file
      · rw [Request.lineRows, if_pos hfile, hfile]
        refine List.filter_eq_self.2 fun row hrow => ?_
        obtain ⟨line, hplace⟩ := place_of_line hrow
        simp [hplace, Place.inFile]
      · rw [Request.lineRows, if_neg hfile]
        refine List.filter_eq_nil_iff.2 fun row hrow => ?_
        obtain ⟨line, hplace⟩ := place_of_line hrow
        simp [hplace, Place.inFile, hfile]
    · rw [symbols_addBreakpoints]
      refine congrArg _ (List.filter_eq_nil_iff.2 fun row hrow => ?_)
      obtain ⟨line, hplace⟩ := place_of_line hrow
      simp [hplace, Place.isSymbol]
  | setDataBreakpoints asked =>
    obtain ⟨bps, hbps, hlisted⟩ := mapM_ok Debugger.addWatchpoints addWatchpoints_append addWatchpoints_nil asked
      (fun a ha d => setWatchpoint_ok (h a ha) d) d
    exact ⟨bps, _, hbps, hlisted, fun file => (List.append_nil _).symm, rfl, (List.append_nil _).symm⟩
  | setExceptionBreakpoints asked =>
    obtain ⟨bps, hbps, hlisted⟩ := mapM_ok Debugger.addBreakpoints addBreakpoints_append addBreakpoints_nil asked
      (fun a ha d => setExceptionBreakpoint_ok (h a ha) d) d
    refine ⟨bps, _, hbps, hlisted, fun file => ?_, (List.append_nil _).symm, ?_⟩
    · rw [linesOf_addBreakpoints]
      refine congrArg _ (List.filter_eq_nil_iff.2 fun row hrow => ?_)
      obtain ⟨symbol, hplace⟩ := place_of_filter hrow
      simp [hplace, Place.inFile]
    · rw [symbols_addBreakpoints]
      refine congrArg _ (List.filter_eq_self.2 fun row hrow => ?_)
      obtain ⟨symbol, hplace⟩ := place_of_filter hrow
      simp [hplace, Place.isSymbol]

theorem debuggerAfter_served {request : Request} (earlier : List Request) (h : request.Served isDecimal) :
    Answered isDecimal (request :: earlier) ∧
      (∀ file, (debuggerAfter isDecimal (request :: earlier)).linesOf file =
        (debuggerAfter isDecimal earlier).linesOf file ++ (request.lineRows file).getD []) ∧
      (debuggerAfter isDecimal (request :: earlier)).watchpoints =
        (debuggerAfter isDecimal earlier).watchpoints ++ request.watchRows.getD [] ∧
      (debuggerAfter isDecimal (request :: earlier)).symbols =
        (debuggerAfter isDecimal earlier).symbols ++ request.symbolRows.getD [] := by
  obtain ⟨bps, d', hhandle, hlisted, hrows⟩ := handle_served h (debuggerAfter isDecimal earlier)
  refine ⟨⟨bps, d', hhandle, hlisted⟩, ?_⟩
  rw [debuggerAfter, hhandle]
  exact hrows

theorem fresh_iff (request : Request) (d : Debugger) :
    request.Fresh d ↔ (∀ file, (request.lineRows file).isSome = true → d.linesOf file = []) ∧
      (request.watchRows.isSome = true → d.watchpoints = []) ∧ (request.symbolRows.isSome = true → d.symbols = []) := by
  cases request with
  | setBreakpoints source asked => simp [Request.Fresh, Request.lineRows, Request.watchRows, Request.symbolRows]
  | setDataBreakpoints asked => simp [Request.Fresh, Request.lineRows, Request.watchRows, Request.symbolRows]
  | setExceptionBreakpoints asked => simp [Request.Fresh, Request.lineRows, Request.watchRows, Request.symbolRows]

/-- In a run of requests that the debugger serves, the debugger holds at every moment what the last request of each
kind asked for and every request is answered with its entries, if and only if each request comes when nothing of its
kind is in the debugger. -/
theorem requests_replace_iff (isDecimal : Char → Bool) (requests : List Request)
    (hserved : ∀ request ∈ requests, request.Served isDecimal) :
    (∀ t, t <:+ requests → Replaced isDecimal t ∧ Answered isDecimal t) ↔
      ∀ request earlier, request :: earlier <:+ requests → request.Fresh (debuggerAfter isDecimal earlier) := by
  have hstep (request : Request) (earlier : List Request) (h : request :: earlier <:+ requests) :=
    debuggerAfter_served earlier (hserved request (h.subset List.mem_cons_self))
  have hlines (file : Text) := view_last_iff requests (·.lineRows file)
    (fun t => (debuggerAfter isDecimal t).linesOf file) rfl fun request earlier h => (hstep request earlier h).2.1 file
  have hwatch := view_last_iff requests (·.watchRows)
    (fun t => (debuggerAfter isDecimal t).watchpoints) rfl fun request earlier h => (hstep request earlier h).2.2.1
  have hsymbols := view_last_iff requests (·.symbolRows)
    (fun t => (debuggerAfter isDecimal t).symbols) rfl fun request earlier h => (hstep request earlier h).2.2.2
  constructor
  · intro h request earlier hsuffix
    rw [fresh_iff]
    exact ⟨fun file => (hlines file).1 (fun t ht => (h t ht).1.lines file) request earlier hsuffix,
      hwatch.1 (fun t ht => (h t ht).1.watchpoints) request earlier hsuffix,
      hsymbols.1 (fun t ht => (h t ht).1.symbols) request earlier hsuffix⟩
  · intro h t ht
    have hfresh (request : Request) (earlier : List Request) (hsuffix : request :: earlier <:+ requests) :=
      (fresh_iff request _).1 (h request earlier hsuffix)
    refine ⟨⟨fun file => (hlines file).2 (fun request earlier hs => (hfresh request earlier hs).1 file) t ht,
      hwatch.2 (fun request earlier hs => (hfresh request earlier hs).2.1) t ht,
      hsymbols.2 (fun request earlier hs => (hfresh request earlier hs).2.2) t ht⟩, ?_⟩
    cases t with
    | nil => trivial
    | cons request earlier => exact (hstep request earlier ht).1

/-- A request with a logpoint in a fresh debugger. -/
def logpoint : Request :=
  .setBreakpoints ⟨none, some "fib.cb".toList⟩
    [⟨⟨7, none, some "n".toList⟩, ⟨.ok "Breakpoint 1: fib.cb:7\n".toList, true⟩, ⟨.ok [], true⟩⟩]

theorem requests_replace_logpoint : Replaced Char.isDigit [logpoint] ∧ Answered Char.isDigit [logpoint] := by
  refine (requests_replace_iff Char.isDigit [logpoint] ?_).2 ?_ _ (List.suffix_refl _)
  · intro request hrequest
    rw [List.mem_singleton.1 hrequest]
    intro a ha
    rw [List.mem_singleton.1 ha]
    refine ⟨⟨_, rfl⟩, fun text htext => absurd htext (Option.not_mem_none text),
      fun text htext => ⟨⟨_, "1".toList, rfl, by decide⟩, rfl, ⟨_, rfl⟩, rfl⟩⟩
  · intro request earlier hsuffix
    obtain ⟨rfl, rfl⟩ : request = logpoint ∧ earlier = [] := by
      have := hsuffix.eq_of_length (by have := hsuffix.length_le; simp at this; simp [this])
      simpa using this
    rfl

/-- The breakpoint of line 7 stays when the next request for the file has none. -/
theorem breakpoint_kept :
    ¬ ∀ t, t <:+ [.setBreakpoints ⟨none, some "fib.cb".toList⟩ [], logpoint] →
      Replaced Char.isDigit t ∧ Answered Char.isDigit t := by
  intro h
  have := (h _ (List.suffix_refl _)).1.lines "fib.cb".toList
  exact absurd this (by decide)

end Cobrust.Dap
