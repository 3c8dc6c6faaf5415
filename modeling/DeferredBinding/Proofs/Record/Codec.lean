import DeferredBinding.Proofs.Artifact.Set
import DeferredBinding.Proofs.Dict
import DeferredBinding.Proofs.Json.ReadBack
import DeferredBinding.Record.Basic

/-!
# A record is read back from its file

Each part of a record is what its value gives: texts, lists, maps, files with their bytes in base64, compiled results
and permutations. Numbers are kept exactly as long as they are 64-bit words (`Record.IdsBounded`), so the bytes of a
record give that record and then only its own checks decide (`Record.ofBytes_toBytes`).
-/
namespace DeferredBinding

/-! ## Values of a known shape -/

namespace Json

@[simp] theorem text?_text (s : String) : (Json.text s).text? = some s := rfl

/-- A number below a bound is read back. -/
theorem natBelow?_nat {bound n : Nat} (h : n < bound) : natBelow? bound (.nat n) = some n := by
  simp [natBelow?, nat, Number.ofNat, Number.natural?, h]

/-- Reading a written list gives what reading each of its items does. -/
theorem mapM_map_eq_some {α β γ : Type} {write : α → β} {read : β → Option γ} {g : α → γ} {l : List α}
    (h : ∀ x ∈ l, read (write x) = some (g x)) : (l.map write).mapM read = some (l.map g) := by
  rw [List.mapM_map]
  exact mapM_eq_pure h

/-- A written list is read back when each of its items is. -/
theorem mapM_map_eq_self {α β : Type} {write : α → β} {read : β → Option α} {l : List α}
    (h : ∀ x ∈ l, read (write x) = some x) : (l.map write).mapM read = some l := by
  rw [mapM_map_eq_some h, List.map_id']

/-- An array is read back when each of its items is. -/
theorem list?_array {α : Type} {write : α → Json} {read : Json → Option α} {l : List α}
    (h : ∀ x ∈ l, read (write x) = some x) : list? read (.array (l.map write)) = some l :=
  mapM_map_eq_self h

/-- A list of texts is read back. -/
theorem list?_texts (l : List String) : list? text? (.texts l) = some l :=
  list?_array fun s _ => text?_text s

/-- The one field with a name. -/
theorem filter_name_of_mem {fields : List (String × Json)} (hd : (fields.map (·.1)).Nodup) {f : String × Json}
    (hf : f ∈ fields) : fields.filter (fun g => g.1 == f.1) = [f] := by
  induction fields with
  | nil => nomatch hf
  | cons g fields ih =>
    rw [List.map_cons, List.nodup_cons] at hd
    rcases List.mem_cons.1 hf with rfl | hf
    · have hrest : ∀ g ∈ fields, ¬(g.1 == f.1) = true := by
        intro g hg he
        exact hd.1 (List.mem_map.2 ⟨g, hg, beq_iff_eq.1 he⟩)
      rw [List.filter_cons_of_pos (by simp), List.filter_eq_nil_iff.2 hrest]
    · have hg : g.1 ≠ f.1 := fun he => hd.1 (List.mem_map.2 ⟨f, hf, he.symm⟩)
      rw [List.filter_cons_of_neg (by simpa using hg), ih hd.2 hf]

/-- The fields of a record are found under their names. -/
theorem fieldsOf?_record {names : List String} {fields : List (String × Json)} (hn : fields.map (·.1) = names)
    (hd : names.Nodup) : fieldsOf? names (.record fields) = some (fields.map fun f => some f.2) := by
  subst hn
  have hnames : (fields.map fun f => (some f.1, f.2)).mapM (fun f => f.1.map fun k => (k, f.2)) = some fields :=
    mapM_map_eq_self fun f _ => rfl
  have hfields : (fields.map (·.1)).mapM (fun name => field? name fields) = some (fields.map fun f => some f.2) := by
    refine mapM_map_eq_some fun f hf => ?_
    rw [field?, valuesFor, filter_name_of_mem hd hf]
    rfl
  rw [record, fieldsOf?, hnames]
  exact hfields

/-! ## Values that can be kept -/

/-- A list of items is legible when each of them is. -/
theorem isLegible_array {items : List Json} (h : ∀ v ∈ items, v.isLegible = true) : (array items).isLegible = true := by
  rw [isLegible]
  induction items with
  | nil => rfl
  | cons v items ih =>
    rw [areItemsLegible, h v List.mem_cons_self, ih fun w hw => h w (List.mem_cons_of_mem v hw)]
    rfl

/-- A record is legible when its values are. -/
theorem isLegible_record {fields : List (String × Json)} (h : ∀ f ∈ fields, f.2.isLegible = true) :
    (record fields).isLegible = true := by
  rw [record, isLegible]
  induction fields with
  | nil => rfl
  | cons f fields ih =>
    rw [List.map_cons, areFieldsLegible, h f List.mem_cons_self, ih fun g hg => h g (List.mem_cons_of_mem f hg)]
    rfl

/-- An array is one deeper than its items. -/
theorem depth_array_le {items : List Json} {n : Nat} (h : ∀ v ∈ items, v.depth ≤ n) : (array items).depth ≤ n + 1 := by
  rw [depth]
  induction items with
  | nil => simp [depthOfItems]
  | cons v items ih =>
    have hv := h v List.mem_cons_self
    have hitems := ih fun w hw => h w (List.mem_cons_of_mem v hw)
    rw [depthOfItems]
    omega

/-- A record is one deeper than its values. -/
theorem depth_record_le {fields : List (String × Json)} {n : Nat} (h : ∀ f ∈ fields, f.2.depth ≤ n) :
    (record fields).depth ≤ n + 1 := by
  rw [record, depth]
  induction fields with
  | nil => simp [depthOfFields]
  | cons f fields ih =>
    have hf := h f List.mem_cons_self
    have hfields := ih fun g hg => h g (List.mem_cons_of_mem f hg)
    rw [List.map_cons, depthOfFields]
    omega

@[simp] theorem isLegible_text (s : String) : (text s).isLegible = true := rfl

@[simp] theorem depth_text (s : String) : (text s).depth = 0 := rfl

@[simp] theorem depth_nat (n : Nat) : (nat n).depth = 0 := rfl

/-- A 64-bit word is not too large for a float. -/
theorem isLegible_nat {n : Nat} (h : n < idBound) : (nat n).isLegible = true := by
  have hbound : idBound ≤ Text.infinityBound := by decide +kernel
  have hn : ¬Text.infinityBound ≤ n := by omega
  simp [nat, isLegible, Number.ofNat, Number.isOverlarge, Text.isOverlarge, hn]

end Json

/-! ## Maps and artifacts -/

/-- A map of texts is read back. -/
theorem Dict.ofJson?_toJson (d : Dict String) : Dict.ofJson? d.toJson = some d := by
  have hfields : d.toJson.textFields? = some d.entries := by
    simp only [Dict.toJson, Json.record, Json.textFields?, List.map_map]
    exact Json.mapM_map_eq_self fun e _ => rfl
  rw [Dict.ofJson?, hfields, Option.map_some, d.ofList_entries]

/-- A map of texts nests nothing. -/
theorem Dict.depth_toJson_le (d : Dict String) : d.toJson.depth ≤ 1 := by
  refine Json.depth_record_le (n := 0) fun f hf => ?_
  obtain ⟨e, -, rfl⟩ := List.mem_map.1 hf
  exact Nat.le_refl 0

/-- A map of texts is legible. -/
theorem Dict.isLegible_toJson (d : Dict String) : d.toJson.isLegible = true := by
  refine Json.isLegible_record fun f hf => ?_
  obtain ⟨e, -, rfl⟩ := List.mem_map.1 hf
  rfl

namespace Artifact

/-- Every id of a result is a 64-bit word. -/
def IdsBounded : Artifact → Prop
  | .emitted _ => True
  | .compilation r => ∀ id ∈ r.ids, id < idBound

/-- The kind of a record with a kind is split off. -/
theorem splitKind?_record (kind : String) {fields : List (String × Json)} (h : "kind" ∉ fields.map (·.1)) :
    splitKind? (.record (("kind", .text kind) :: fields)) = some (kind, .record fields) := by
  have hnone : ∀ f ∈ fields.map (fun f => (some f.1, f.2)), ¬(f.1 == some "kind") = true := by
    intro f hf he
    obtain ⟨g, hg, rfl⟩ := List.mem_map.1 hf
    exact h (List.mem_map.2 ⟨g, hg, by simpa using he⟩)
  have hkeep : (fields.map fun f => (some f.1, f.2)).filter (fun f => f.1 != some "kind") =
      fields.map fun f => (some f.1, f.2) :=
    List.filter_eq_self.2 fun f hf => by simpa [bne] using hnone f hf
  simp only [Json.record, splitKind?, List.map_cons]
  rw [List.filter_cons_of_pos (by simp), List.filter_eq_nil_iff.2 hnone, List.filter_cons_of_neg (by simp), hkeep]
  rfl

/-- A file is read back. -/
theorem readEmitted?_record (e : Emitted) :
    readEmitted? (.record [("partial_path", .text e.path), ("contents", .text (Base64.ofBytes e.contents)),
      ("visibility", .text e.visibility.label), ("producer", .text e.producer)]) = some e := by
  have hbytes : (Json.text (Base64.ofBytes e.contents)).bytes? = some e.contents := Base64.toBytes?_ofBytes e.contents
  have hvisible : (Json.text e.visibility.label).choice? Json.isBlank Visibility.ofLabel? = some e.visibility := by
    cases e.visibility with
    | publicly => rfl
    | privately => rfl
  rw [readEmitted?, Json.fieldsOf?_record (by rfl) (by decide)]
  simp [hbytes, hvisible]

/-- A result is read back. -/
theorem readCompilation?_record {r : CompiledResult} (h : ∀ id ∈ r.ids, id < idBound) :
    readCompilation? (.record [("strong_name", .text r.strongName), ("code", .text r.code),
      ("permutation_ids", .array (r.ids.map .nat)), ("selection_permutations", .array (r.selections.map Dict.toJson))]) =
      some r := by
  have hids : (Json.array (r.ids.map .nat)).list? (Json.natBelow? idBound) = some r.ids :=
    Json.list?_array fun id hid => Json.natBelow?_nat (h id hid)
  have hselections : (Json.array (r.selections.map Dict.toJson)).list? Dict.ofJson? = some r.selections :=
    Json.list?_array fun d _ => d.ofJson?_toJson
  rw [readCompilation?, Json.fieldsOf?_record (by rfl) (by decide)]
  simp [hids, hselections]

/-- An artifact nests at most three deep. -/
theorem depth_toJson_le (a : Artifact) : a.toJson.depth ≤ 3 := by
  cases a with
  | emitted e =>
    refine Json.depth_record_le fun f hf => ?_
    simp only [List.mem_cons, List.not_mem_nil, or_false] at hf
    rcases hf with rfl | rfl | rfl | rfl | rfl <;> simp
  | compilation r =>
    have hids : (Json.array (r.ids.map .nat)).depth ≤ 1 := Json.depth_array_le (n := 0) (by simp)
    have hselections : (Json.array (r.selections.map Dict.toJson)).depth ≤ 2 := by
      refine Json.depth_array_le fun v hv => ?_
      obtain ⟨d, -, rfl⟩ := List.mem_map.1 hv
      exact d.depth_toJson_le
    refine Json.depth_record_le fun f hf => ?_
    simp only [List.mem_cons, List.not_mem_nil, or_false] at hf
    rcases hf with rfl | rfl | rfl | rfl | rfl
    · simp
    · simp
    · simp
    · exact Nat.le_succ_of_le hids
    · exact hselections

/-- An artifact with 64-bit ids is legible. -/
theorem isLegible_toJson {a : Artifact} (h : a.IdsBounded) : a.toJson.isLegible = true := by
  cases a with
  | emitted e => exact Json.isLegible_record (by simp)
  | compilation r =>
    have hids : (Json.array (r.ids.map .nat)).isLegible = true := by
      refine Json.isLegible_array fun v hv => ?_
      obtain ⟨id, hid, rfl⟩ := List.mem_map.1 hv
      exact Json.isLegible_nat (h id hid)
    have hselections : (Json.array (r.selections.map Dict.toJson)).isLegible = true := by
      refine Json.isLegible_array fun v hv => ?_
      obtain ⟨d, -, rfl⟩ := List.mem_map.1 hv
      exact d.isLegible_toJson
    exact Json.isLegible_record (by simp [hids, hselections])

/-- An artifact is read back wherever it stands, if not too deep. -/
theorem ofJson?_toJson {a : Artifact} (h : a.IdsBounded) {level : Nat} (hlevel : level + 3 ≤ nestingBound) :
    ofJson? level a.toJson = some a := by
  have hdepth := a.depth_toJson_le
  have hkept : (!a.toJson.isLegible || decide (nestingBound < level + a.toJson.depth)) = false := by
    rw [isLegible_toJson h, decide_eq_false (by omega)]
    rfl
  unfold ofJson?
  rw [hkept]
  cases a with
  | emitted e =>
    rw [toJson, splitKind?_record "emitted" (by simp)]
    simp [readEmitted?_record]
  | compilation r =>
    rw [toJson, splitKind?_record "compilation" (by simp)]
    simp [readCompilation?_record h]

end Artifact

/-- A set of artifacts is read back in its order. -/
theorem ArtifactSet.ofJson?_toJson {s : ArtifactSet} (h : ∀ a ∈ s.entries, a.IdsBounded) {level : Nat}
    (hlevel : level + 4 ≤ nestingBound) : ArtifactSet.ofJson? level s.toJson = some s := by
  have hlist : s.toJson.list? (Artifact.ofJson? (level + 1)) = some s.entries :=
    Json.list?_array fun a ha => Artifact.ofJson?_toJson (h a ha) (by omega)
  rw [ArtifactSet.ofJson?, hlist, Option.map_some, s.ofList_entries]

/-! ## Records -/

/-- An oracle is read back, whatever its shape. -/
theorem Oracle.ofJson?_toJson (o : Oracle) : Oracle.ofJson? o.toJson = some o := by
  rw [Oracle.ofJson?, Oracle.toJson, Json.fieldsOf?_record (by rfl) (by decide)]
  simp [Json.list?_texts]

/-- A permutation with a 64-bit id is read back. -/
theorem Permutation.ofJson?_toJson {p : Permutation} (h : p.id < idBound) :
    Permutation.ofJson? p.toJson = some p := by
  have horacles : (Json.array (p.oracles.map Oracle.toJson)).list? Oracle.ofJson? = some p.oracles :=
    Json.list?_array fun o _ => o.ofJson?_toJson
  rw [Permutation.ofJson?, Permutation.toJson, Json.fieldsOf?_record (by rfl) (by decide)]
  simp [Json.natBelow?_nat h, horacles]

namespace Record

/-- Every id in a record is a 64-bit word. -/
structure IdsBounded (r : Record) : Prop where
  permutations : ∀ p ∈ r.permutations, p.id < idBound
  generated : ∀ a ∈ r.generated.entries, a.IdsBounded

/-- The style and the body of a record are read back. -/
theorem readShared?_record (r : Record) :
    readShared? (.record [("options", .record [("output_style", .text r.style.label)]), ("body", .text r.body)]) =
      some (r.style, r.body) := by
  have hstyle : readStyle? (.record [("output_style", .text r.style.label)]) = some r.style := by
    rw [readStyle?, Json.fieldsOf?_record (by rfl) (by decide)]
    cases r.style with
    | obfuscated => rfl
    | pretty => rfl
    | detailed => rfl
  rw [readShared?, Json.fieldsOf?_record (by rfl) (by decide)]
  simp [hstyle]

/-- A record is read back from its value, with the current version. -/
theorem ofJson?_toJson {r : Record} (h : r.IdsBounded) : ofJson? r.toJson = some (formatVersion, r) := by
  have hversion : Json.natBelow? (Nat.pow 2 32) (.nat formatVersion) = some formatVersion :=
    Json.natBelow?_nat (by decide)
  have hpermutations : (Json.array (r.permutations.map Permutation.toJson)).list? Permutation.ofJson? =
      some r.permutations :=
    Json.list?_array fun p hp => Permutation.ofJson?_toJson (h.permutations p hp)
  have hgenerated : ArtifactSet.ofJson? 1 r.generated.toJson = some r.generated :=
    ArtifactSet.ofJson?_toJson h.generated (by decide)
  rw [ofJson?, toJson, Json.fieldsOf?_record (by rfl) (by decide)]
  simp [hversion, readShared?_record, hpermutations, Dict.ofJson?_toJson, hgenerated]

/-- The bytes of a record give that record, unless it fails its checks. -/
theorem ofBytes_toBytes {r : Record} (h : r.IdsBounded) :
    ofBytes r.toBytes = (r.check formatVersion).map fun _ => r := by
  rw [ofBytes, toBytes, Json.ofBytes?_prettyText, Option.bind_some, ofJson?_toJson h]
  dsimp only
  cases r.check formatVersion with
  | error e => rfl
  | ok u => rfl

end Record

end DeferredBinding
