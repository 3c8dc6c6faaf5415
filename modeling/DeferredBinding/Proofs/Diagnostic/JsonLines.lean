import DeferredBinding.Diagnostic.Report
import DeferredBinding.Proofs.Record.Codec

/-!
# Diagnostics are read back from their lines

The compact form of a value escapes every line feed, so it is one line whatever its texts hold (`newline_notMem_compact`). Lines
of JSON are therefore cut where one diagnostic ends and the next begins (`linePieces_jsonLines`), and each line says what its
diagnostic says and nothing else, so that the diagnostic is found again in it (`jsonLines_read_back`).
-/

namespace DeferredBinding

/-! ## One line -/

namespace Json

/-- A hexadecimal digit is no line feed. -/
theorem hexDigit_ne_newline {n : Nat} (h : n < 16) : '\n' ≠ hexDigit n := by
  revert n
  decide

/-- A line feed is escaped, and no other character is spelled with one. -/
theorem newline_notMem_escape (c : Char) : '\n' ∉ escape c := by
  unfold escape
  split_ifs with h₁ h₂ h₃ h₄ h₅ h₆ h₇ h₈
  · simp
  · simp
  · simp
  · simp
  · simp
  · simp
  · simp
  · have hhigh : '\n' ≠ hexDigit (c.toNat / 16) := hexDigit_ne_newline (by omega)
    have hlow : '\n' ≠ hexDigit (c.toNat % 16) := hexDigit_ne_newline (by omega)
    simp [hhigh, hlow]
  · simpa using Ne.symm h₃

/-- A text in quotes has no line feed. -/
theorem newline_notMem_spellString (s : Option String) : '\n' ∉ spellString s := by
  cases s with
  | none => decide
  | some s => simp [spellString, quote, newline_notMem_escape]

theorem newline_notMem_decimal (n : Nat) : '\n' ∉ Nat.toDigits 10 n := by
  intro h
  have hdigit := isDigit_of_mem_decimal h
  exact absurd hdigit (by decide)

/-- A number has no line feed. -/
theorem newline_notMem_spellNumber (n : Number) : '\n' ∉ spellNumber n := by
  obtain ⟨negative, digits, scale⟩ := n
  have hint : ∀ e : Int, '\n' ∉ spellInt e := by
    intro e
    cases e with
    | ofNat k => exact newline_notMem_decimal k
    | negSucc k => simp [spellInt, newline_notMem_decimal]
  cases negative <;> cases scale <;> simp [spellNumber, newline_notMem_decimal, hint]

mutual

/-- The compact form of a value has no line feed, whatever its texts hold. -/
theorem newline_notMem_compact (v : Json) : '\n' ∉ v.compact := by
  match v with
  | .null | .bool true | .bool false | .array [] | .object [] => simp [compact]
  | .number n =>
    rw [compact]
    exact newline_notMem_spellNumber n
  | .string s =>
    rw [compact]
    exact newline_notMem_spellString s
  | .array (v :: items) =>
    have hv := newline_notMem_compact v
    have hitems := newline_notMem_compactItems items
    simp [compact, hv, hitems]
  | .object ((k, v) :: fields) =>
    have hk := newline_notMem_spellString k
    have hv := newline_notMem_compact v
    have hfields := newline_notMem_compactFields fields
    simp [compact, hk, hv, hfields]

/-- Nor have the items of an array. -/
theorem newline_notMem_compactItems (items : List Json) : '\n' ∉ compactItems items := by
  match items with
  | [] => simp [compactItems]
  | v :: items =>
    have hv := newline_notMem_compact v
    have hitems := newline_notMem_compactItems items
    simp [compactItems, hv, hitems]

/-- Nor have the fields of an object. -/
theorem newline_notMem_compactFields (fields : List (Option String × Json)) : '\n' ∉ compactFields fields := by
  match fields with
  | [] => simp [compactFields]
  | (k, v) :: fields =>
    have hk := newline_notMem_spellString k
    have hv := newline_notMem_compact v
    have hfields := newline_notMem_compactFields fields
    simp [compactFields, hk, hv, hfields]

end

/-- A text, or nothing where a value is null. -/
def textOrNull? : Json → Option (Option String)
  | .null => some none
  | .string s => s.map some
  | _ => none

/-- A text that may be missing is read back. -/
@[simp] theorem textOrNull?_textOrNull (s : Option String) : (textOrNull s).textOrNull? = some s := by
  cases s with
  | none => rfl
  | some s => rfl

/-- Whether a value is an object with so many fields. -/
def hasFields (n : Nat) : Json → Bool
  | .object fields => fields.length == n
  | _ => false

end Json

/-! ## What a line says -/

namespace Diagnostic

/-- What a diagnostic says, in texts. -/
structure Statement where
  code : String
  category : String
  severity : String
  message : String
  path : Option String
  causes : List String
  help : Option String
  deriving DecidableEq, Repr

/-- What a diagnostic says. -/
def statement (d : Diagnostic) : Statement where
  code := d.code.label
  category := d.code.category.label
  severity := d.severity.label
  message := d.message
  path := d.path.map (·.text)
  causes := d.causes
  help := d.help

/-- What an object with the seven fields of a statement, and no others, says. -/
def readStatement? (v : Json) : Option Statement :=
  if v.hasFields 7 then do
    match ← v.fieldsOf? ["category", "causes", "code", "help", "message", "path", "severity"] with
    | [some category, some causes, some code, some help, some message, some path, some severity] =>
      some {
        code := ← code.text?
        category := ← category.text?
        severity := ← severity.text?
        message := ← message.text?
        path := ← path.textOrNull?
        causes := ← causes.list? Json.text?
        help := ← help.textOrNull? }
    | _ => none
  else none

/-- What a line of JSON says. -/
def readLine? (line : String) : Option Statement := do
  readStatement? (← Json.ofText? line)

/-- The severity with a name. -/
def Severity.ofLabel? (text : String) : Option Severity :=
  [note, warning, error].find? fun s => s.label == text

/-- The diagnostic that says something; the category it names has to be that of its code. -/
def Statement.diagnostic? (s : Statement) : Option Diagnostic := do
  let code ← Code.parse? s.code
  let severity ← Severity.ofLabel? s.severity
  if s.category = code.category.label then
    some {
      code := code
      severity := severity
      message := s.message
      path := s.path.map Path.mk
      causes := s.causes
      help := s.help }
  else none

/-- A code is found by its text. -/
theorem Code.parse?_label (c : Code) : Code.parse? c.label = some c := by
  cases c <;> rfl

/-- A severity is found by its name. -/
theorem Severity.ofLabel?_label (s : Severity) : Severity.ofLabel? s.label = some s := by
  cases s <;> rfl

/-- A diagnostic is known by what it says. -/
theorem diagnostic?_statement (d : Diagnostic) : d.statement.diagnostic? = some d := by
  have hpath : (d.path.map (·.text)).map Path.mk = d.path := by
    rw [Option.map_map]
    exact Option.map_id'
  unfold Statement.diagnostic?
  simp [statement, Code.parse?_label, Severity.ofLabel?_label, hpath]

/-- The value of a diagnostic says what the diagnostic says. -/
theorem readStatement?_toJson (d : Diagnostic) : readStatement? d.toJson = some d.statement := by
  have hfields : d.toJson.hasFields 7 = true := rfl
  unfold readStatement?
  rw [if_pos hfields, toJson, Json.fieldsOf?_record (by rfl) (by decide)]
  simp [Json.list?_texts, statement]

/-- The line of a diagnostic says what the diagnostic says. -/
theorem readLine?_compactText (d : Diagnostic) : readLine? d.toJson.compactText = some d.statement := by
  unfold readLine?
  rw [Json.ofText?_compactText]
  exact readStatement?_toJson d

/-! ## Lines -/

/-- The pieces of a text between its line feeds. -/
def linePieces (text : String) : List String :=
  (text.toList.splitOn '\n').map String.ofList

/-- The first line ends where the compact form of its diagnostic does. -/
theorem toList_jsonLines_cons (d : Diagnostic) (l : List Diagnostic) :
    (jsonLines (d :: l)).toList = d.toJson.compact ++ '\n' :: (jsonLines l).toList := by
  simp [jsonLines, jsonLine, Json.compactText]

/-- Between the line feeds are the diagnostics in their order, and behind the last one is nothing. -/
theorem linePieces_jsonLines (l : List Diagnostic) :
    linePieces (jsonLines l) = l.map (·.toJson.compactText) ++ [""] := by
  induction l with
  | nil => rfl
  | cons d l ih =>
    have hline : d.toJson.compact.splitOnP (· == '\n') = [d.toJson.compact] := by
      refine List.splitOnP_eq_singleton ?_
      intro c hc
      refine beq_eq_false_iff_ne.2 ?_
      rintro rfl
      exact d.toJson.newline_notMem_compact hc
    unfold linePieces List.splitOn at ih ⊢
    rw [toList_jsonLines_cons, List.splitOnP_append_cons _ _ (by rfl), hline, List.map_append, ih]
    rfl

/-- There are as many line feeds as diagnostics. -/
theorem count_newline_jsonLines (l : List Diagnostic) : (jsonLines l).toList.count '\n' = l.length := by
  induction l with
  | nil => rfl
  | cons d l ih =>
    have hline := List.count_eq_zero.2 d.toJson.newline_notMem_compact
    rw [toList_jsonLines_cons, List.count_append, hline, List.count_cons_self, ih, List.length_cons]
    omega

/-- The lines of a list of diagnostics: there is a line feed for each, at the end of its line, and each line is an object that
says exactly what its diagnostic says, which is enough to find the diagnostic again. -/
theorem jsonLines_read_back (l : List Diagnostic) :
    (jsonLines l).toList.count '\n' = l.length ∧
      ∃ lines, linePieces (jsonLines l) = lines ++ [""] ∧ (lines.map readLine? = l.map fun d => some d.statement) ∧
        (lines.map fun line => (readLine? line).bind Statement.diagnostic?) = l.map some := by
  have hsaid : (l.map (·.toJson.compactText)).map readLine? = l.map fun d => some d.statement := by
    rw [List.map_map]
    exact List.map_congr_left fun d _ => readLine?_compactText d
  refine ⟨count_newline_jsonLines l, l.map (·.toJson.compactText), linePieces_jsonLines l, hsaid, ?_⟩
  rw [List.map_map]
  refine List.map_congr_left fun d _ => ?_
  rw [Function.comp_apply, readLine?_compactText, Option.bind_some, diagnostic?_statement]

end Diagnostic

end DeferredBinding
