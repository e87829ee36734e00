import Cobrust.Mir.Tree

/-!
# The intrinsic rewrite

`rewrite_print` of `cobrust-cli/src/build/intrinsics.rs`: calls of prelude stubs become calls of runtime helpers, and the
bodies of the stubs are removed. A call is found by the id of a collected body, or by the name of a local.
-/

namespace Cobrust.Build

open Mir

/-- `cobrust-mir`'s `Module`. -/
structure Module where
  bodies : List Body

inductive IntrinsicError where
  | printArgUnsupported (found : String)
  deriving DecidableEq, Repr

inductive Kind where
  | print | input | inputNoPrompt | readLine | argv | parseInt | strLen | strAt | strEq | strEqLit | strOrd
  | parseIntTok | countToks | listSet | listGet | listLen | listIsEmpty | listAppend | listPop | dictIsEmpty
  | lenPoly | listNew | printNoNl | llmComplete | llmDispatch | llmStream | promptRender | promptFormatFewShot
  | promptFormatSystemUser | promptEscapeBraces | llmCompleteStructured | toolSchema | toolRegistryNew
  | toolRegistryRegister | toolInvoke | llmCompleteWithTools | mathSqrt | mathFloor | mathCeil | mathRound | mathAbs
  | mathPow | mathSin | mathCos | mathTan | mathLog | mathExp | min | max | sum | sorted | strSplit | strJoin
  | strReplace | strTrim | strLstrip | strRstrip | strCount | strFind | strContains | strStartsWith | strEndsWith
  | strLower | strUpper | strClone | bytesFromStr | bytesDecode | bytesHex | readFile | readFileLines | writeFile
  | appendFile | stdinReadAll | stdoutWrite | stderrWrite | jsonDumps | jsonDumpsIndent | jsonLoads
  deriving DecidableEq, Repr

namespace Kind

/-- The order of `kind_for_def_id`. -/
def all : List Kind :=
  [.print, .input, .inputNoPrompt, .readLine, .argv, .parseInt, .strLen, .strAt, .strEq, .strEqLit, .strOrd,
    .parseIntTok, .countToks, .listSet, .listGet, .listLen, .listIsEmpty, .listAppend, .listPop, .dictIsEmpty,
    .lenPoly, .listNew, .printNoNl, .llmComplete, .llmDispatch, .llmStream, .promptRender, .promptFormatFewShot,
    .promptFormatSystemUser, .promptEscapeBraces, .llmCompleteStructured, .toolSchema, .toolRegistryNew,
    .toolRegistryRegister, .toolInvoke, .llmCompleteWithTools, .mathSqrt, .mathFloor, .mathCeil, .mathRound, .mathAbs,
    .mathPow, .mathSin, .mathCos, .mathTan, .mathLog, .mathExp, .min, .max, .sum, .sorted, .strSplit, .strJoin,
    .strReplace, .strTrim, .strLstrip, .strRstrip, .strCount, .strFind, .strContains, .strStartsWith, .strEndsWith,
    .strLower, .strUpper, .strClone, .bytesFromStr, .bytesDecode, .bytesHex, .readFile, .readFileLines, .writeFile,
    .appendFile, .stdinReadAll, .stdoutWrite, .stderrWrite, .jsonDumps, .jsonDumpsIndent, .jsonLoads]

def name : Kind → String
  | .print => "print"
  | .input => "input"
  | .inputNoPrompt => "input_no_prompt"
  | .readLine => "read_line"
  | .argv => "argv"
  | .parseInt => "parse_int"
  | .strLen => "str_len"
  | .strAt => "str_at"
  | .strEq => "str_eq"
  | .strEqLit => "str_eq_lit"
  | .strOrd => "str_ord"
  | .parseIntTok => "parse_int_tok"
  | .countToks => "count_toks"
  | .listSet => "list_set"
  | .listGet => "list_get"
  | .listLen => "list_len"
  | .listIsEmpty => "list_is_empty"
  | .listAppend => "list_append"
  | .listPop => "list_pop"
  | .dictIsEmpty => "dict_is_empty"
  | .lenPoly => "len"
  | .listNew => "list_new"
  | .printNoNl => "print_no_nl"
  | .llmComplete => "llm_complete"
  | .llmDispatch => "llm_dispatch"
  | .llmStream => "llm_stream"
  | .promptRender => "prompt_render"
  | .promptFormatFewShot => "prompt_format_few_shot"
  | .promptFormatSystemUser => "prompt_format_system_user"
  | .promptEscapeBraces => "prompt_escape_braces"
  | .llmCompleteStructured => "llm_complete_structured"
  | .toolSchema => "tool_schema"
  | .toolRegistryNew => "tool_registry_new"
  | .toolRegistryRegister => "tool_registry_register"
  | .toolInvoke => "tool_invoke"
  | .llmCompleteWithTools => "llm_complete_with_tools"
  | .mathSqrt => "sqrt"
  | .mathFloor => "floor"
  | .mathCeil => "ceil"
  | .mathRound => "round"
  | .mathAbs => "abs"
  | .mathPow => "pow"
  | .mathSin => "sin"
  | .mathCos => "cos"
  | .mathTan => "tan"
  | .mathLog => "log"
  | .mathExp => "exp"
  | .min => "min"
  | .max => "max"
  | .sum => "sum"
  | .sorted => "sorted"
  | .strSplit => "split"
  | .strJoin => "join"
  | .strReplace => "replace"
  | .strTrim => "trim"
  | .strLstrip => "lstrip"
  | .strRstrip => "rstrip"
  | .strCount => "count"
  | .strFind => "find"
  | .strContains => "contains"
  | .strStartsWith => "starts_with"
  | .strEndsWith => "ends_with"
  | .strLower => "lower"
  | .strUpper => "upper"
  | .strClone => "clone"
  | .bytesFromStr => "bytes_from_str"
  | .bytesDecode => "bytes_decode"
  | .bytesHex => "bytes_hex"
  | .readFile => "read_file"
  | .readFileLines => "read_file_lines"
  | .writeFile => "write_file"
  | .appendFile => "append_file"
  | .stdinReadAll => "stdin_read_all"
  | .stdoutWrite => "stdout_write"
  | .stderrWrite => "stderr_write"
  | .jsonDumps => "json_dumps"
  | .jsonDumpsIndent => "json_dumps_indent"
  | .jsonLoads => "json_loads"

/-- The names of which only the first body is collected. -/
def guarded : Kind → Bool
  | .mathSqrt | .mathFloor | .mathCeil | .mathRound | .mathAbs | .mathPow | .mathSin | .mathCos | .mathTan | .mathLog
  | .mathExp | .min | .max | .sum | .sorted | .strSplit | .strJoin | .strReplace | .strTrim | .strLstrip | .strRstrip
  | .strCount | .strFind | .strContains | .strStartsWith | .strEndsWith | .strLower | .strUpper | .strClone => true
  | _ => false

/-- The number of arguments that a call is rewritten with. -/
def arity : Kind → Nat
  | .inputNoPrompt | .readLine | .argv | .toolRegistryNew | .stdinReadAll => 0
  | .strAt | .strEq | .strEqLit | .parseIntTok | .listGet | .listAppend | .llmDispatch | .promptFormatSystemUser
  | .llmCompleteStructured | .toolRegistryRegister | .toolInvoke | .llmCompleteWithTools | .mathPow | .strSplit
  | .strJoin | .strCount | .strFind | .strContains | .strStartsWith | .strEndsWith | .writeFile | .appendFile
  | .jsonDumpsIndent => 2
  | .listSet | .llmComplete | .llmStream | .promptRender | .promptFormatFewShot | .strReplace => 3
  | .toolSchema => 4
  | _ => 1

/-- What the error says about a call with another number of arguments. -/
def found (k : Kind) (n : Nat) : String :=
  match k with
  | .print => s!"{n} arg(s)"
  | .mathSqrt | .mathFloor | .mathCeil | .mathRound | .mathSin | .mathCos | .mathTan | .mathLog | .mathExp =>
    s!"math single-arg: expected 1 arg, got {n}"
  | .min | .max | .sum => s!"min/max/sum: expected 1 list arg, got {n}"
  | .sorted => s!"sorted: expected 1 list arg, got {n}"
  | .strSplit | .strFind | .strContains | .strStartsWith | .strEndsWith | .strCount =>
    s!"M-F.3.5 string fn: expected 2 args, got {n}"
  | .strTrim | .strLstrip | .strRstrip | .strLower | .strUpper | .strClone | .bytesFromStr | .bytesDecode | .bytesHex =>
    s!"single-arg ptr→ptr fn: expected 1 arg, got {n}"
  | _ =>
    let args := if k.arity = 1 then "arg" else "args"
    s!"{k.name}: expected {k.arity} {args}, got {n}"

end Kind

/-- `kind_for_name`. -/
def kindForName (name : String) : Option Kind :=
  Kind.all.find? fun k => k.name == name

/-- `collect_print_def_ids`: the ids of the bodies with the name of a stub. -/
def collectPrintDefIds (bodies : List Body) (k : Kind) : List DefId :=
  let ids := (bodies.filter fun b => b.name == k.name).map Body.defId
  if k.guarded then ids.take 1 else ids

/-- `IntrinsicDefIds::all`. -/
def allIds (bodies : List Body) : List DefId :=
  Kind.all.flatMap (collectPrintDefIds bodies)

def kindForDefId (bodies : List Body) (id : DefId) : Option Kind :=
  Kind.all.find? fun k => (collectPrintDefIds bodies k).contains id

/-! ## Helpers -/

def derefTy : Ty → Ty
  | .ref t => t
  | t => t

/-- The last declaration of a local. -/
def localDecl (body : Body) (l : LocalId) : Option LocalDecl :=
  body.locals.reverse.find? fun d => d.id == l

def localName (body : Body) (l : LocalId) : Option String :=
  (localDecl body l).map LocalDecl.name

def localTy (body : Body) (l : LocalId) : Option Ty :=
  (localDecl body l).map LocalDecl.ty

/-- The local of an operand that is one without projections. -/
def bareLocal : Operand → Option LocalId
  | .copy (.mk l []) => some l
  | .move (.mk l []) => some l
  | _ => none

/-- `print`: a local without a resolved type holds an `i64`. -/
def printSymbol (body : Body) (arg : Operand) : String :=
  let effectiveTy : Option Ty :=
    match arg with
    | .constant (.int _) => some .int
    | .constant (.bool _) => some .bool
    | .constant (.float _) => some .float
    | _ => (bareLocal arg).map fun l =>
      match localTy body l with
      | none | some .none => .int
      | some t => t
  match effectiveTy, arg with
  | some .int, _ => "__cobrust_println_int"
  | some .bool, _ => "__cobrust_println_bool"
  | some .float, _ => "__cobrust_println_float"
  | _, .constant (.str _) => "__cobrust_println"
  | _, _ => "__cobrust_println_str_buf"

/-- The type of an argument of `len` or `append`, without one reference. -/
def argTy (body : Body) (arg : Operand) : Option Ty :=
  (bareLocal arg).bind fun l => (localTy body l).map derefTy

/-- The type that a call's result has, without one reference. -/
def destTy (body : Body) (destination : Place) : Option Ty :=
  (localTy body destination.localId).map derefTy

def lenSymbol (body : Body) (arg : Operand) : String :=
  let effectiveTy : Option Ty :=
    match arg with
    | .constant (.str _) => some .str
    | .constant (.bytes _) => some .bytes
    | _ => argTy body arg
  match effectiveTy with
  | some .str => "__cobrust_str_char_count"
  | some .bytes => "__cobrust_bytes_len"
  | some (.list _) => "__cobrust_list_len"
  | _ => "__cobrust_dict_len"

def appendSymbol (body : Body) (value : Operand) : String :=
  let valTy : Option Ty :=
    match value with
    | .constant (.float _) => some .float
    | .constant (.int _) => some .int
    | _ => argTy body value
  match valTy with
  | some .float => "__cobrust_list_append_float"
  | _ => "__cobrust_list_append"

def absSymbol (body : Body) (arg : Operand) (destination : Place) : String :=
  match destTy body destination, arg with
  | some .int, _ => "__cobrust_int_abs"
  | some .float, _ => "__cobrust_math_abs"
  | _, .constant (.int _) => "__cobrust_int_abs"
  | _, _ => "__cobrust_math_abs"

def sortedSymbol (body : Body) (destination : Place) : String :=
  match destTy body destination with
  | some (.list .float) => "__cobrust_list_sort_float"
  | some (.list .str) => "__cobrust_list_sort_str"
  | _ => "__cobrust_list_sort_int"

/-- One symbol where the result is a `float`, another one elsewhere. -/
def byDest (body : Body) (destination : Place) (float other : String) : String :=
  match destTy body destination with
  | some .float => float
  | _ => other

/-- One symbol for a string literal, another one for the rest. -/
def byLiteral (arg : Operand) (literal other : String) : String :=
  match arg with
  | .constant (.str _) => literal
  | _ => other

/-- `args[i]`, of a call that has its arguments. -/
def arg (args : List Operand) (i : Nat) : Operand :=
  args.getD i (.constant .none)

/-- The runtime helper of a call that has its arguments. -/
def runtimeSymbol (body : Body) (args : List Operand) (destination : Place) : Kind → String
  | .print => printSymbol body (arg args 0)
  | .input => byLiteral (arg args 0) "__cobrust_input" "__cobrust_input_str_buf"
  | .inputNoPrompt => "__cobrust_input_no_prompt"
  | .readLine => "__cobrust_read_line"
  | .argv => "__cobrust_argv"
  | .parseInt => "__cobrust_parse_int"
  | .strLen => "__cobrust_str_char_count"
  | .strAt => "__cobrust_str_at"
  | .strEq => "__cobrust_str_eq"
  | .strEqLit => "__cobrust_str_eq_lit"
  | .strOrd => "__cobrust_str_ord"
  | .parseIntTok => "__cobrust_parse_int_tok"
  | .countToks => "__cobrust_count_toks"
  | .listSet => "__cobrust_list_set"
  | .listGet => "__cobrust_list_get"
  | .listLen => "__cobrust_list_len"
  | .listIsEmpty => "__cobrust_list_is_empty"
  | .listAppend => appendSymbol body (arg args 1)
  | .listPop => byDest body destination "__cobrust_list_pop_float" "__cobrust_list_pop"
  | .dictIsEmpty => "__cobrust_dict_is_empty"
  | .lenPoly => lenSymbol body (arg args 0)
  | .listNew => "__cobrust_list_new"
  | .printNoNl => byLiteral (arg args 0) "__cobrust_print_no_nl_lit" "__cobrust_print_no_nl"
  | .llmComplete => "__cobrust_llm_complete"
  | .llmDispatch => "__cobrust_llm_dispatch"
  | .llmStream => "__cobrust_llm_stream"
  | .promptRender => "__cobrust_prompt_render"
  | .promptFormatFewShot => "__cobrust_prompt_format_few_shot"
  | .promptFormatSystemUser => "__cobrust_prompt_format_system_user"
  | .promptEscapeBraces => "__cobrust_prompt_escape_braces"
  | .llmCompleteStructured => "__cobrust_llm_complete_structured"
  | .toolSchema => "__cobrust_tool_schema"
  | .toolRegistryNew => "__cobrust_tool_registry_new"
  | .toolRegistryRegister => "__cobrust_tool_registry_register"
  | .toolInvoke => "__cobrust_tool_invoke"
  | .llmCompleteWithTools => "__cobrust_llm_complete_with_tools"
  | .mathSqrt => "__cobrust_math_sqrt"
  | .mathFloor => "__cobrust_math_floor"
  | .mathCeil => "__cobrust_math_ceil"
  | .mathRound => "__cobrust_math_round"
  | .mathAbs => absSymbol body (arg args 0) destination
  | .mathPow => "__cobrust_math_pow"
  | .mathSin => "__cobrust_math_sin"
  | .mathCos => "__cobrust_math_cos"
  | .mathTan => "__cobrust_math_tan"
  | .mathLog => "__cobrust_math_log"
  | .mathExp => "__cobrust_math_exp"
  | .min => byDest body destination "__cobrust_min_float" "__cobrust_min_int"
  | .max => byDest body destination "__cobrust_max_float" "__cobrust_max_int"
  | .sum => byDest body destination "__cobrust_sum_float" "__cobrust_sum_int"
  | .sorted => sortedSymbol body destination
  | .strSplit => "__cobrust_str_split"
  | .strJoin => "__cobrust_str_join"
  | .strReplace => "__cobrust_str_replace"
  | .strTrim => "__cobrust_str_trim"
  | .strLstrip => "__cobrust_str_lstrip"
  | .strRstrip => "__cobrust_str_rstrip"
  | .strCount => "__cobrust_str_count"
  | .strFind => "__cobrust_str_find"
  | .strContains => "__cobrust_str_contains"
  | .strStartsWith => "__cobrust_str_starts_with"
  | .strEndsWith => "__cobrust_str_ends_with"
  | .strLower => "__cobrust_str_lower"
  | .strUpper => "__cobrust_str_upper"
  | .strClone => "__cobrust_str_clone"
  | .bytesFromStr => "__cobrust_bytes_from_str"
  | .bytesDecode => "__cobrust_bytes_decode"
  | .bytesHex => "__cobrust_bytes_hex"
  | .readFile => "__cobrust_read_file"
  | .readFileLines => "__cobrust_read_file_lines"
  | .writeFile => "__cobrust_write_file"
  | .appendFile => "__cobrust_append_file"
  | .stdinReadAll => "__cobrust_stdin_read_all"
  | .stdoutWrite => "__cobrust_stdout_write"
  | .stderrWrite => "__cobrust_stderr_write"
  | .jsonDumps => "__cobrust_json_dumps"
  | .jsonDumpsIndent => "__cobrust_json_dumps_indent"
  | .jsonLoads => "__cobrust_json_loads"

/-- `move_to_copy`. -/
def moveToCopy : Operand → Operand
  | .move p => .copy p
  | op => op

/-- The arguments of the rewritten call: file and JSON helpers borrow their strings, `list_new` gets an element size. -/
def runtimeArgs : Kind → List Operand → List Operand
  | .listNew, args => .constant (.int 0) :: args
  | .readFile, args | .readFileLines, args | .writeFile, args | .appendFile, args | .stdoutWrite, args
  | .stderrWrite, args | .jsonDumps, args | .jsonLoads, args => args.map moveToCopy
  | .jsonDumpsIndent, input :: rest => moveToCopy input :: rest
  | _, args => args

/-- The stub that a callee stands for. -/
def calleeKind (bodies : List Body) (body : Body) (func : Operand) : Option Kind :=
  match func with
  | .constant (.fnRef d) => kindForDefId bodies d
  | _ => ((bareLocal func).bind (localName body)).bind kindForName

def rewriteTerminator (bodies : List Body) (body : Body) : Terminator → Except IntrinsicError Terminator
  | .call func args destination target unwind =>
    match calleeKind bodies body func with
    | none => .ok (.call func args destination target unwind)
    | some k =>
      if args.length = k.arity then
        .ok (.call (.constant (.str (runtimeSymbol body args destination k))) (runtimeArgs k args) destination target
          unwind)
      else .error (.printArgUnsupported (k.found args.length))
  | t => .ok t

def rewriteBody (bodies : List Body) (body : Body) : Except IntrinsicError Body := do
  let blocks ← body.blocks.mapM fun block => do
    let terminator ← rewriteTerminator bodies body block.terminator
    return { block with terminator }
  return { body with blocks }

def rewritePrint (m : Module) : Except IntrinsicError Module := do
  let stubs := allIds m.bodies
  if stubs.isEmpty then return m
  let bodies ← m.bodies.mapM fun body =>
    if stubs.contains body.defId then .ok body else rewriteBody m.bodies body
  return ⟨bodies.filter fun body => !stubs.contains body.defId⟩

end Cobrust.Build
