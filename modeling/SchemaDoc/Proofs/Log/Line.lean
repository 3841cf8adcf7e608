import SchemaDoc.Log.Record
import SchemaDoc.Proofs.Dictionary
import SchemaDoc.Proofs.Json.Printed

/-!
# Log lines

The line of a record is the text of one JSON object with a line feed behind it. No other line feed
is in the line, whatever the texts of the record are, and the object has the members of the record
in their order and no others. So no text that a record carries can pass for a line or for a member
of one. Fields of different keys are listed by key, and in whatever order they are given the line is
the same.
-/

namespace SchemaDoc.Record

variable {m : String × String} {fields others : List (String × String)}

/-! ## Fields by key -/

private theorem le_trans' (m n o : String × String) :
    decide (m.1 ≤ n.1) = true → decide (n.1 ≤ o.1) = true → decide (m.1 ≤ o.1) = true := by
  simpa using String.le_trans

private theorem sortFields_perm (fields : List (String × String)) :
    (sortFields fields).Perm fields := List.mergeSort_perm _ _

private theorem pairwise_sortFields (fields : List (String × String)) :
    (sortFields fields).Pairwise (·.1 ≤ ·.1) := by
  have total (m n : String × String) : (decide (m.1 ≤ n.1) || decide (n.1 ≤ m.1)) = true := by
    simpa using String.le_total m.1 n.1
  exact (List.pairwise_mergeSort le_trans' total fields).imp of_decide_eq_true

private theorem sortFields_of_pairwise (h : fields.Pairwise (·.1 ≤ ·.1)) :
    sortFields fields = fields :=
  List.mergeSort_of_pairwise (h.imp decide_eq_true)

private theorem sorted_sortFields (h : (Dictionary.keys fields).Nodup) :
    Dictionary.Sorted (sortFields fields) := by
  have keys_perm : (Dictionary.keys (sortFields fields)).Perm (Dictionary.keys fields) :=
    (sortFields_perm fields).map Prod.fst
  have different : (Dictionary.keys (sortFields fields)).Pairwise (· ≠ ·) :=
    keys_perm.nodup_iff.mpr h
  have inOrder : (Dictionary.keys (sortFields fields)).Pairwise (· ≤ ·) :=
    List.pairwise_map.mpr (pairwise_sortFields fields)
  exact (inOrder.and different).imp fun h ↦ Std.lt_of_le_of_ne h.1 h.2

private theorem sortFields_eq_of_perm (h : (Dictionary.keys fields).Nodup)
    (hp : others.Perm fields) :
    sortFields others = sortFields fields := by
  have h' : (Dictionary.keys others).Nodup := (hp.map Prod.fst).nodup_iff.mpr h
  have same : (sortFields others).Perm (sortFields fields) :=
    (sortFields_perm others).trans (hp.trans (sortFields_perm fields).symm)
  apply Dictionary.Sorted.eq_of_find? (sorted_sortFields h') (sorted_sortFields h)
  intro key
  apply Option.ext
  intro v
  rw [(sorted_sortFields h').find?_eq_some_iff, (sorted_sortFields h).find?_eq_some_iff]
  exact same.mem_iff

/-! ## Lines -/

/-- A line says some members: it is the UTF-8 text of one JSON object that has these members in this
order, and a line feed, which is the only one. -/
def IsLine (line : Bytes) (members : List (String × Value)) : Prop :=
  ∃ text, line = text ++ [0x0A] ∧ 0x0A ∉ text ∧ Utf8.IsText text ∧
    Json.parse text = .ok (.table members)

private theorem exists_string_of_mem_members {r : Record} {m : String × Value} (h : m ∈ r.members) :
    ∃ s, m.2 = .string s := by
  rcases List.mem_cons.mp h with rfl | h
  · exact ⟨_, rfl⟩
  rcases List.mem_cons.mp h with rfl | h
  · exact ⟨_, rfl⟩
  · obtain ⟨field, -, rfl⟩ := List.mem_map.mp h
    exact ⟨_, rfl⟩

private theorem not_control_of_mem_joined {ts : List Bytes} {first : Bool} {b : UInt8}
    (each : ∀ t ∈ ts, ∀ b ∈ t, ¬b.toNat < 0x20) (h : b ∈ Json.joined first ts) :
    ¬b.toNat < 0x20 := by
  induction ts generalizing first with
  | nil => cases first <;> cases h
  | cons t ts ih =>
    obtain ⟨here, behind⟩ := List.forall_mem_cons.mp each
    have inside (h : b ∈ t ++ Json.joined false ts) : ¬b.toNat < 0x20 := by
      rcases List.mem_append.mp h with h | h
      · exact here b h
      · exact ih behind h
    cases first with
    | true => exact inside h
    | false =>
      rcases List.mem_cons.mp h with rfl | h
      · decide
      · exact inside h

private theorem not_control_of_mem_print {r : Record} {b : UInt8}
    (h : b ∈ Json.print (.table r.members)) : ¬b.toNat < 0x20 := by
  have members : ∀ t ∈ r.members.map Json.printMember, ∀ b ∈ t, ¬b.toNat < 0x20 := by
    intro t ht b hb
    obtain ⟨⟨key, v⟩, hm, rfl⟩ := List.mem_map.mp ht
    obtain ⟨s, rfl⟩ : ∃ s, v = .string s := exists_string_of_mem_members hm
    rcases List.mem_append.mp hb with hb | hb
    · exact Json.not_control_of_mem_printString hb
    rcases List.mem_cons.mp hb with rfl | hb
    · decide
    · exact Json.not_control_of_mem_printString hb
  rw [Json.print, Json.printMembers_eq_joined] at h
  rcases List.mem_cons.mp h with rfl | h
  · decide
  rcases List.mem_append.mp h with h | h
  · exact not_control_of_mem_joined members h
  · obtain rfl := List.mem_singleton.mp h
    decide

private theorem spells_members (r : Record) :
    Json.Spells Json.depthLimit (.table r.members) (Json.print (.table r.members)) := by
  apply Json.spells_print
  · apply Value.doubleFreeMembers_iff.mpr
    intro m hm
    obtain ⟨s, hs⟩ := exists_string_of_mem_members hm
    rw [hs]
    trivial
  · apply Nat.succ_le_succ
    apply Value.nestingMembers_le_iff.mpr
    intro m hm
    obtain ⟨s, hs⟩ := exists_string_of_mem_members hm
    rw [hs]
    exact Nat.zero_le _

/-- The line of a record says the members of the record. -/
theorem isLine_line (r : Record) : IsLine r.line r.members :=
  ⟨Json.print (.table r.members), rfl, fun h ↦ not_control_of_mem_print h (by decide),
    (spells_members r).plain.text, (spells_members r).parse⟩

/-- Fields that stand by key are written as they are. -/
theorem line_of_pairwise {r : Record} (h : r.fields.Pairwise (·.1 ≤ ·.1)) :
    r.line = Json.print (.table (("event", .string r.event) ::
      ("severity", .string r.severity.name) :: r.fields.map fun m ↦ (m.1, .string m.2))) ++
        [0x0A] := by
  rw [line, members, sortFields_of_pairwise h]

/-! ## Members by key -/

private theorem nodup_keys_members {r : Record} (distinct : (r.fields.map Prod.fst).Nodup)
    (free : ∀ key ∈ r.fields.map Prod.fst, key ≠ "event" ∧ key ≠ "severity") :
    (Dictionary.keys r.members).Nodup := by
  have keys_eq : Dictionary.keys r.members =
      "event" :: "severity" :: Dictionary.keys (sortFields r.fields) := by
    simp [members, Dictionary.keys]
  have same : (Dictionary.keys (sortFields r.fields)).Perm (r.fields.map Prod.fst) :=
    (sortFields_perm r.fields).map Prod.fst
  rw [keys_eq]
  apply List.nodup_cons.mpr
  constructor
  · intro h
    rcases List.mem_cons.mp h with h | h
    · exact absurd h (by decide)
    · exact (free _ (same.mem_iff.mp h)).1 rfl
  · exact List.nodup_cons.mpr
      ⟨fun h ↦ (free _ (same.mem_iff.mp h)).2 rfl, same.nodup_iff.mpr distinct⟩

private theorem normalize_members {r : Record} (h : (Dictionary.keys r.members).Nodup) :
    ∃ d : Dictionary Value, (Value.table r.members).normalize = .table d ∧
      ∀ key v, Dictionary.find? key d = some v ↔ (key, v) ∈ r.members := by
  have plain : Value.normalizeMembers r.members = r.members := by
    rw [Value.normalizeMembers_eq_map]
    have each : ∀ m ∈ r.members, (m.1, m.2.normalize) = m := by
      rintro ⟨key, v⟩ hm
      obtain ⟨s, rfl⟩ : ∃ s, v = .string s := exists_string_of_mem_members hm
      rfl
    exact (List.map_congr_left each).trans (List.map_id _)
  refine ⟨Dictionary.ofList r.members, ?_, fun key v ↦ Dictionary.find?_ofList_of_nodup h⟩
  rw [Value.normalize, plain]

/-- A line of fields with different keys, none of which is the key of the event or the severity, is
one JSON object and a line feed. The members are the event, the severity and then the fields, by
increasing key, whatever texts they are and in whatever order they were given; in any order the line
is the same. Who looks a key up in the object finds just what was given for it. -/
theorem line_is_one_object (severity : Severity) (event : String)
    (fields : List (String × String)) (distinct : (fields.map Prod.fst).Nodup)
    (free : ∀ key ∈ fields.map Prod.fst, key ≠ "event" ∧ key ≠ "severity") :
    ∃ sorted : List (String × String), sorted.Perm fields ∧
      (sorted.map Prod.fst).Pairwise (· < ·) ∧
      let members : List (String × Value) := ("event", .string event) ::
        ("severity", .string severity.name) :: sorted.map fun m ↦ (m.1, .string m.2)
      IsLine (Record.mk severity event fields).line members ∧
        (∀ others : List (String × String), others.Perm fields →
          (Record.mk severity event others).line = (Record.mk severity event fields).line) ∧
        ∃ d : Dictionary Value, (Value.table members).normalize = .table d ∧
          ∀ key v, Dictionary.find? key d = some v ↔ (key, v) ∈ members := by
  refine ⟨sortFields fields, sortFields_perm fields, sorted_sortFields distinct, isLine_line _,
    fun others hp ↦ ?_, ?_⟩
  · rw [line, line, members, members, sortFields_eq_of_perm distinct hp]
  · exact normalize_members (r := ⟨severity, event, fields⟩) (nodup_keys_members distinct free)

/-- A quote, a line feed and the beginning of another line stay inside the text that they are in. -/
theorem forged_line_stays_one_text :
    let fields := [("reason", "\"\x7d\n\x7b\"event\":\"LOGIN\""), ("a\\", "\x01")]
    (fields.map Prod.fst).Nodup ∧
      (∀ key ∈ fields.map Prod.fst, key ≠ "event" ∧ key ≠ "severity") ∧
      ∃ sorted : List (String × String), sorted.Perm fields ∧
        (sorted.map Prod.fst).Pairwise (· < ·) ∧
        IsLine (Record.mk .warn "SEEN" fields).line (("event", .string "SEEN") ::
          ("severity", .string "WARN") :: sorted.map fun m ↦ (m.1, .string m.2)) := by
  intro fields
  have distinct : (fields.map Prod.fst).Nodup := by decide
  have free : ∀ key ∈ fields.map Prod.fst, key ≠ "event" ∧ key ≠ "severity" := by decide
  obtain ⟨sorted, perm, byKey, isLine, -⟩ :=
    line_is_one_object .warn "SEEN" fields distinct free
  exact ⟨distinct, free, sorted, perm, byKey, isLine⟩

end SchemaDoc.Record
