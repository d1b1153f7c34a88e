import Inlining.Instruction

/-!
# The history of a run and its notes

Every decision with a visible effect is recorded as an event. Events are never changed or removed,
and the figures of a run are counted from them. Notes are lines for whoever watches a run. They
never steer the run: they are handed to the host, which may print, keep or drop them.

## Main definitions

* `Event` — what happened, where, and a few words on it
* `History` — the events of a run in order
* `Tally` — how many events of each kind there are
* `Note` — one line of diagnostics
-/

namespace Inlining

/-- What happened. -/
inductive Event.Kind where
  | callSiteInlined
  | frequencyRedistributed
  | optimizerFallback
  | indexRebuilt
  | selectionExhausted
  | warning
deriving DecidableEq

namespace Event.Kind

/-- The kind of event in words. -/
def text : Event.Kind → String
  | callSiteInlined => "call site inlined"
  | frequencyRedistributed => "frequencies redistributed"
  | optimizerFallback => "optimizer fallback"
  | indexRebuilt => "call graph index rebuilt"
  | selectionExhausted => "selection exhausted"
  | warning => "warning"

/-- The kind of event in detailed texts. -/
def inspect : Event.Kind → String
  | callSiteInlined => "CallSiteInlined"
  | frequencyRedistributed => "FrequencyRedistributed"
  | optimizerFallback => "OptimizerFallback"
  | indexRebuilt => "IndexRebuilt"
  | selectionExhausted => "SelectionExhausted"
  | warning => "Warning"

end Event.Kind

/-- One event. -/
structure Event where
  kind : Event.Kind
  function : Option FunctionId := none
  location : Option Location := none
  message : String := ""
deriving DecidableEq

namespace Event

/-- The event at a location, which also names the function. -/
def atLocation (e : Event) (l : Location) : Event :=
  { e with location := some l, function := some l.function }

/-- The event about a function. -/
def about (e : Event) (f : FunctionId) : Event := { e with function := some f }

/-- The event with a message. -/
def saying (e : Event) (message : String) : Event := { e with message }

/-- The event in one line: its kind, its place as precisely as it is known, and its message. -/
def text (e : Event) : String :=
  let place :=
    match e.location, e.function with
    | some l, _ => " " ++ l.label
    | none, some f => " " ++ f.label
    | none, none => ""
  let message := if e.message.isEmpty then "" else ": " ++ e.message
  "[" ++ e.kind.text ++ "]" ++ place ++ message

/-- The detailed text of a field that may be absent. -/
def inspectField (field : Option String) : String :=
  match field with
  | some s => "Some(" ++ s ++ ")"
  | none => "None"

/-- The detailed text of an event, with its fields spelt out. The message is quoted as it stands, so
the text is only unambiguous for messages without quotes, backslashes and control characters. -/
def inspect (e : Event) : String :=
  "Event \x7b kind: " ++ e.kind.inspect
    ++ ", function: " ++ inspectField (e.function.map Ident.inspect)
    ++ ", location: " ++ inspectField (e.location.map Location.inspect)
    ++ ", message: \"" ++ e.message ++ "\" \x7d"

end Event

/-- How many events of each kind a run has. -/
structure Tally where
  inlined : Nat
  redistributions : Nat
  fallbacks : Nat
  rebuilds : Nat
  warnings : Nat
deriving DecidableEq

/-- The figures in one line. -/
def Tally.text (t : Tally) : String :=
  toString t.inlined ++ " call sites inlined, " ++ toString t.redistributions
    ++ " redistributions, " ++ toString t.fallbacks ++ " optimizer fallbacks, "
    ++ toString t.rebuilds ++ " rebuilds, " ++ toString t.warnings ++ " warnings"

/-- The events of a run, the oldest first. -/
structure History where
  events : Array Event := #[]
deriving DecidableEq

namespace History

/-- The history with one more event. -/
def record (h : History) (e : Event) : History := { events := h.events.push e }

/-- The number of events of a kind. -/
def count (h : History) (kind : Event.Kind) : Nat :=
  h.events.toList.countP fun e => e.kind = kind

/-- The figures of the run. -/
def tally (h : History) : Tally where
  inlined := h.count .callSiteInlined
  redistributions := h.count .frequencyRedistributed
  fallbacks := h.count .optimizerFallback
  rebuilds := h.count .indexRebuilt
  warnings := h.count .warning

/-- The detailed text of a history. -/
def inspect (h : History) : String :=
  "[" ++ ", ".intercalate (h.events.toList.map Event.inspect) ++ "]"

/-- Recording an event adds one to the count of its kind and leaves the others. -/
theorem count_record (h : History) (e : Event) (kind : Event.Kind) :
    (h.record e).count kind = h.count kind + if e.kind = kind then 1 else 0 := by
  simp [record, count, List.countP_append, List.countP_cons]

end History

/-! ### Notes -/

/-- How much attention a note asks for. -/
inductive Level where
  | error
  | warn
  | info
  | debug
  | trace
deriving DecidableEq

/-- The word that a log shows for the level. -/
def Level.word : Level → String
  | error => "ERROR"
  | warn => "WARN"
  | info => "INFO"
  | debug => "DEBUG"
  | trace => "TRACE"

/-- One line of diagnostics. -/
structure Note where
  level : Level
  text : String
deriving DecidableEq

end Inlining
