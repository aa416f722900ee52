import LayeredConfig.Log.Basic
import LayeredConfig.Proofs.Json.Encodable
import Mathlib.Data.List.Induction

/-!
# What a logger writes

- `Line.wellFormed_toJson`: the document of a line is well-formed. So its text is one line, and
  stands for the document.
- `Tells`: what can be read off the document of a line. Its data is there if there was any and no
  integer that cannot be written is reached from it (`Unwritable`), and else the entry says so.
- `Logger.written_tells`: a call writes nothing, if it is for `debug` events and these are not
  logged, and one such line otherwise, whatever strings and data it is given. A child writes to the
  sink of the logger that it comes from.
-/

namespace LayeredConfig

theorem EncodingError.message_eq (error : EncodingError) :
    error.message = "Do not know how to serialize a BigInt" := by
  cases error
  rfl

namespace Log

namespace Line

theorem wellFormed_dataMembers (line : Line) : ∀ m ∈ line.dataMembers, m.2.WellFormed := by
  unfold dataMembers
  split
  · exact List.forall_mem_nil _
  · split
    · rename_i hes
      exact List.forall_mem_singleton.2 (.object (Value.wellFormed_of_encodeEntries _ hes))
    · exact List.forall_mem_cons.2 ⟨.string _, List.forall_mem_singleton.2 (.string _)⟩

/-- The document of a line is well-formed. -/
theorem wellFormed_toJson (timestamp : String) (line : Line) :
    (line.toJson timestamp).WellFormed := by
  refine .object fun m hm => ?_
  rcases List.mem_append.1 hm with hm | hm
  · simp only [List.mem_cons, List.not_mem_nil, or_false] at hm
    rcases hm with rfl | rfl | rfl | rfl <;> exact .string _
  · exact line.wellFormed_dataMembers m hm

end Line

/-! ## What a line tells -/

/-- Data was given, and an integer that cannot be written is reached from it. -/
def Unwritable (data : Option (Entries Value)) : Prop :=
  ∃ es, data = some es ∧ (Value.ofEntries es).ReachesBigint

/-- What can be read off the document of a line. -/
structure Tells (doc : Json) (severity : Severity) (component event : String)
    (data : Option (Entries Value)) : Prop where
  level : ∀ s : Severity, doc.member? "level" = some (.string s.name) ↔ s = severity
  component : doc.member? "component" = some (.string component)
  event : doc.member? "event" = some (.string event)
  hasData : (∃ d, doc.member? "data" = some d) ↔ data.isSome ∧ ¬Unwritable data
  content : ∀ d, doc.member? "data" = some d ↔
    ∃ es, data = some es ∧ (Value.ofEntries es).encode = .ok (some d)
  serializationError : ∀ d, doc.member? "serializationError" = some d ↔
    Unwritable data ∧ d = .string "Do not know how to serialize a BigInt"
  originalData : ∀ d, doc.member? "originalData" = some d ↔
    Unwritable data ∧ d = .string "[unserializable]"

theorem Severity.name_injective {s t : Severity} (h : s.name = t.name) : s = t := by
  cases s <;> cases t <;> first | rfl | exact absurd h (by decide)

theorem Severity.name_eq_iff (s t : Severity) : s.name = t.name ↔ t = s :=
  ⟨fun h => (Severity.name_injective h).symm, fun h => h ▸ rfl⟩

theorem unwritable_some_iff {es : Entries Value} :
    Unwritable (some es) ↔ ∃ error, Value.encodeEntries es = .error error := by
  rw [exists_error_iff, Value.encodeEntries_exists_iff_not_reachesBigint, not_not]
  simp [Unwritable]

/-- **The document of a line tells what was logged.** -/
theorem Line.tells (timestamp : String) (line : Line) :
    Tells (line.toJson timestamp) line.severity line.component line.event line.data := by
  obtain ⟨sink, severity, component, event, data⟩ := line
  cases data with
  | none =>
    have hwritable : ¬Unwritable none := by
      rintro ⟨es, h, -⟩
      cases h
    refine ⟨?_, rfl, rfl, ?_, fun d => ?_, fun d => ?_, fun d => ?_⟩
    all_goals simp [toJson, dataMembers, Json.member?, List.findRev?, hwritable,
      Severity.name_eq_iff]
  | some es =>
    have hencode : (Value.ofEntries es).encode =
        (Value.encodeEntries es).map fun members => some (.object members) := by
      rw [Value.ofEntries, Value.encode]
    cases hes : Value.encodeEntries es with
    | ok members =>
      have hwritable : ¬Unwritable (some es) := by
        rw [unwritable_some_iff, hes]
        rintro ⟨error, h⟩
        cases h
      rw [hes] at hencode
      refine ⟨?_, ?_, ?_, ?_, fun d => ?_, fun d => ?_, fun d => ?_⟩
      all_goals simp [toJson, dataMembers, Json.member?, List.findRev?, hes, hwritable, hencode,
        Severity.name_eq_iff, Except.map]
    | error error =>
      have hunwritable : Unwritable (some es) := unwritable_some_iff.2 ⟨error, hes⟩
      rw [hes] at hencode
      refine ⟨?_, ?_, ?_, ?_, fun d => ?_, fun d => ?_, fun d => ?_⟩
      all_goals simp [toJson, dataMembers, Json.member?, List.findRev?, hes, hunwritable, hencode,
        Severity.name_eq_iff, EncodingError.message_eq, Except.map]
      all_goals exact eq_comm

/-! ## Calls -/

namespace Logger

/-- Children have the mode and the sink of the logger, and the last one gives the component. -/
theorem foldl_child (logger : Logger) (children : List String) :
    children.foldl child logger =
      ⟨children.getLast?.getD logger.component, logger.debugMode, logger.sink⟩ := by
  induction children using List.reverseRecOn with
  | nil => rfl
  | append_singleton children component ih =>
    rw [List.foldl_append, ih, List.getLast?_concat]
    rfl

/-- One line is written, unless it is for a `debug` event and these are not logged. -/
theorem written_eq (logger : Logger) (timestamp : String) (severity : Severity) (event : String)
    (data : Option (Entries Value)) :
    logger.written timestamp severity event data =
      if severity = .debug ∧ logger.debugMode = false then []
      else [(logger.sink,
        Line.written timestamp ⟨logger.sink, severity, logger.component, event, data⟩)] := by
  have hlogs : logger.logs severity = true ↔ ¬(severity = .debug ∧ logger.debugMode = false) := by
    simp [logs, imp_iff_not_or]
  by_cases hquiet : severity = .debug ∧ logger.debugMode = false
  · rw [written, line?, if_pos hquiet, if_neg fun h => hlogs.1 h hquiet]
    rfl
  · rw [written, line?, if_neg hquiet, if_pos (hlogs.2 hquiet)]
    rfl

/-- **A call writes nothing or one line, and the line tells what was logged.** It writes nothing
exactly for `debug` events that are not logged. Otherwise encoding comes to a document, and the
document's text, which has no line break, is written to the sink of the logger with one at its end.
Read as JSON, it gives the document. -/
theorem written_tells (logger : Logger) (children : List String) (timestamp : String)
    (severity : Severity) (event : String) (data : Option (Entries Value)) :
    ∃ doc : Json,
      ((children.foldl child logger).written timestamp severity event data =
        if severity = .debug ∧ logger.debugMode = false then []
        else [(logger.sink, doc.text ++ "\n")]) ∧
      Line.encoded timestamp
          ⟨logger.sink, severity, children.getLast?.getD logger.component, event, data⟩ =
        .ok (some doc) ∧
      '\n' ∉ doc.text.toList ∧
      Json.read? doc.text = some doc ∧
      Tells doc severity (children.getLast?.getD logger.component) event data := by
  let line : Line :=
    ⟨logger.sink, severity, children.getLast?.getD logger.component, event, data⟩
  have hdoc := line.wellFormed_toJson timestamp
  refine ⟨line.toJson timestamp, ?_, line.encoded_eq timestamp, ?_, Json.read?_text hdoc,
    line.tells timestamp⟩
  · rw [foldl_child, written_eq]
    rfl
  · rw [Json.text, String.toList_ofList]
    exact Json.newline_not_mem_chars hdoc

end Logger

end Log

end LayeredConfig
