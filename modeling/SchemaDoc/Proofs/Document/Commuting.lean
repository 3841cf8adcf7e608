import SchemaDoc.Proofs.Document.Atomicity
import SchemaDoc.Proofs.Document.Reachable

/-!
# Changes of different fields

Setting a field and removing one look at nothing but the schema and the value of their own key, so
changes of different keys do not see each other. They get the same replies in every order and leave
the same document. Where none of them takes effect, what was cached is still there.
-/

namespace SchemaDoc

/-! ## One change -/

/-- A change of one field. -/
inductive FieldChange where
  /-- The field is set. -/
  | set (key : String) (v : Value)
  /-- The field is removed. -/
  | remove (key : String)

namespace FieldChange

variable {x y : FieldChange} {schema : Schema} {members : Dictionary Value}
  {d : Document .table}

/-- The key of the field. -/
def key : FieldChange → String
  | set key _ | remove key => key

/-- What is asked of the document. -/
def request : FieldChange → CheckedDocument.Request .table
  | set key v => .set key v
  | remove key => .remove key

/-- The members once the change is made. -/
def apply : FieldChange → Dictionary Value → Dictionary Value
  | set key v, members => Dictionary.insert key v.normalize members
  | remove key, members => Dictionary.erase key members

/-- Whether there is anything to change: a field that may be set, or one that can be removed. -/
def takesEffect (schema : Schema) : FieldChange → Dictionary Value → Bool
  | set key v, _ => (CheckedDocument.checkSet schema key v.normalize).isOk
  | remove key, members => (Dictionary.find? key members).isSome

/-- Whether the payload is read even if there is nothing to change. -/
def reads : FieldChange → Bool
  | set _ _ => false
  | remove _ => true

/-- The reply under a schema, by the value that the key has in what the document reads as. -/
def replyFor (schema : Schema) : FieldChange → Except DocumentError (Option Value) → Reply
  | set key v, held =>
    match CheckedDocument.checkSet schema key v.normalize with
    | .ok () => held.map fun _ ↦ .done
    | .error violation => .error (.violation violation)
  | remove _, held => held.map .value?

/-- The document behind a change under a schema. -/
def leave (schema : Schema) (x : FieldChange) (d : Document .table) : Document .table :=
  match d.reading with
  | .error _ => d
  | .ok (members : Dictionary Value) =>
    if x.takesEffect schema members then .decoded (x.apply members)
    else if x.reads then d.afterReading
    else d

/-- What a document reads as once the key has been looked up. -/
def heldAt (key : String) (d : Document .table) : Except DocumentError (Option Value) :=
  d.reading.map fun (members : Dictionary Value) ↦ Dictionary.find? key members

private theorem leave_of_error {e : DocumentError} (h : d.reading = .error e) :
    x.leave schema d = d := by
  rw [leave, h]

private theorem leave_of_takesEffect (h : d.reading = .ok members)
    (ht : x.takesEffect schema members = true) :
    x.leave schema d = .decoded (x.apply members) := by
  rw [leave, h]
  exact if_pos ht

private theorem leave_of_not_takesEffect (h : d.reading = .ok members)
    (ht : x.takesEffect schema members = false) :
    x.leave schema d = if x.reads then d.afterReading else d := by
  rw [leave, h]
  exact if_neg (by simp [ht])

private theorem heldAt_of_ok (h : d.reading = .ok members) (key : String) :
    heldAt key d = .ok (Dictionary.find? key members) := by
  rw [heldAt, h]
  rfl

private theorem heldAt_of_error {e : DocumentError} (h : d.reading = .error e) (key : String) :
    heldAt key d = .error e := by
  rw [heldAt, h]
  rfl

private theorem reply_set (key : String) (v : Value) (c : CheckedDocument .table) :
    CheckedDocument.reply (.set key v) c =
      ((set key v).replyFor c.schema (heldAt key c.document),
        ⟨(set key v).leave c.schema c.document, c.schema⟩) := by
  rw [CheckedDocument.reply, Action.reply, CheckedDocument.result_set, replyFor]
  cases hc : CheckedDocument.checkSet c.schema key v.normalize with
  | error violation =>
    have refused (members : Dictionary Value) :
        (set key v).takesEffect c.schema members = false := by
      rw [takesEffect, hc]
      rfl
    cases hr : c.document.reading with
    | error e =>
      rw [leave_of_error hr]
      rfl
    | ok members =>
      rw [leave_of_not_takesEffect hr (refused members)]
      rfl
  | ok u =>
    have taken (members : Dictionary Value) :
        (set key v).takesEffect c.schema members = true := by
      rw [takesEffect, hc]
      rfl
    cases hr : c.document.reading with
    | error e =>
      rw [leave_of_error hr, heldAt_of_error hr]
      rfl
    | ok members =>
      rw [leave_of_takesEffect hr (taken members), heldAt_of_ok hr]
      rfl

private theorem reply_remove (key : String) (c : CheckedDocument .table) :
    CheckedDocument.reply (.remove key) c =
      ((remove key).replyFor c.schema (heldAt key c.document),
        ⟨(remove key).leave c.schema c.document, c.schema⟩) := by
  rw [CheckedDocument.reply, Action.reply, CheckedDocument.result_remove, replyFor]
  cases hr : c.document.reading with
  | error e =>
    rw [leave_of_error hr, heldAt_of_error hr]
  | ok members =>
    rw [heldAt_of_ok hr]
    dsimp only
    cases hf : Dictionary.find? key members with
    | none =>
      have absent : (remove key).takesEffect c.schema members = false := by
        rw [takesEffect, hf]
        rfl
      rw [leave_of_not_takesEffect hr absent]
      rfl
    | some v =>
      have present : (remove key).takesEffect c.schema members = true := by
        rw [takesEffect, hf]
        rfl
      rw [leave_of_takesEffect hr present]
      rfl

private theorem reply_request (x : FieldChange) (c : CheckedDocument .table) :
    CheckedDocument.reply x.request c =
      (x.replyFor c.schema (heldAt x.key c.document), ⟨x.leave c.schema c.document, c.schema⟩) := by
  cases x with
  | set key v => exact reply_set key v c
  | remove key => exact reply_remove key c

/-! ## Two changes -/

private theorem reading_leave (h : d.reading = .ok members) : (x.leave schema d).reading =
    .ok (if x.takesEffect schema members then x.apply members else members : Dictionary Value) := by
  cases ht : x.takesEffect schema members with
  | true =>
    rw [leave_of_takesEffect h ht]
    rfl
  | false =>
    rw [leave_of_not_takesEffect h ht]
    split
    · exact (Document.reading_afterReading d).trans h
    · exact h

private theorem find?_apply (hs : Dictionary.Sorted members) {key : String} (hne : x.key ≠ key) :
    Dictionary.find? key (x.apply members) = Dictionary.find? key members := by
  cases x with
  | set k v => exact (Dictionary.find?_insert k key _ members).trans (if_neg hne)
  | remove k => exact (Dictionary.find?_erase hs k key).trans (if_neg hne)

private theorem sorted_apply (hs : Dictionary.Sorted members) :
    Dictionary.Sorted (x.apply members) := by
  cases x with
  | set key v => exact hs.insert key v.normalize
  | remove key => exact hs.erase key

private theorem takesEffect_apply (hs : Dictionary.Sorted members) (hne : x.key ≠ y.key) :
    y.takesEffect schema (x.apply members) = y.takesEffect schema members := by
  cases y with
  | set key v => rfl
  | remove key => exact congrArg Option.isSome (find?_apply hs hne)

private theorem apply_apply (hs : Dictionary.Sorted members) (hne : x.key ≠ y.key) :
    y.apply (x.apply members) = x.apply (y.apply members) := by
  cases x with
  | set a v =>
    cases y with
    | set b w => exact hs.insert_insert hne v.normalize w.normalize
    | remove b => exact hs.erase_insert hne v.normalize
  | remove a =>
    cases y with
    | set b w => exact (hs.erase_insert hne.symm w.normalize).symm
    | remove b => exact hs.erase_erase a b

/-- The members of a document are in order. -/
def Orderly (d : Document .table) : Prop :=
  ∀ members : Dictionary Value, d.reading = .ok members → Dictionary.Sorted members

private theorem Orderly.leave (h : Orderly d) : Orderly (x.leave schema d) := by
  intro after ha
  cases hr : d.reading with
  | error e =>
    rw [leave_of_error hr] at ha
    exact h after ha
  | ok members =>
    rw [reading_leave hr] at ha
    obtain rfl := Except.ok.inj ha
    split
    · exact sorted_apply (h members hr)
    · exact h members hr

private theorem heldAt_leave (h : Orderly d) {key : String} (hne : x.key ≠ key) :
    heldAt key (x.leave schema d) = heldAt key d := by
  cases hr : d.reading with
  | error e => rw [leave_of_error hr]
  | ok members =>
    rw [heldAt_of_ok (reading_leave hr), heldAt_of_ok hr]
    split
    · rw [find?_apply (h members hr) hne]
    · rfl

private theorem leave_leave_eq (h : Orderly d) (hr : d.reading = .ok members)
    (hne : x.key ≠ y.key) :
    y.leave schema (x.leave schema d) =
      if x.takesEffect schema members then
        .decoded (if y.takesEffect schema members then y.apply (x.apply members)
          else x.apply members)
      else if y.takesEffect schema members then .decoded (y.apply members)
      else if x.reads || y.reads then d.afterReading
      else d := by
  have seen : (x.leave schema d).reading = .ok (if x.takesEffect schema members then
      x.apply members else members : Dictionary Value) := reading_leave hr
  have same : y.takesEffect schema (x.apply members) = y.takesEffect schema members :=
    takesEffect_apply (h members hr) hne
  cases hx : x.takesEffect schema members with
  | true =>
    rw [hx, if_pos rfl] at seen
    rw [if_pos rfl]
    cases hy : y.takesEffect schema members with
    | true => rw [leave_of_takesEffect seen (same.trans hy), if_pos rfl]
    | false =>
      rw [leave_of_not_takesEffect seen (same.trans hy), leave_of_takesEffect hr hx]
      cases y.reads <;> rfl
  | false =>
    rw [hx, if_neg Bool.false_ne_true] at seen
    rw [if_neg Bool.false_ne_true]
    cases hy : y.takesEffect schema members with
    | true => rw [leave_of_takesEffect seen hy, if_pos rfl]
    | false =>
      rw [leave_of_not_takesEffect seen hy, leave_of_not_takesEffect hr hx,
        if_neg Bool.false_ne_true]
      cases x.reads <;> cases y.reads <;> simp [Document.afterReading_afterReading]

private theorem leave_leave (h : Orderly d) (hne : x.key ≠ y.key) :
    y.leave schema (x.leave schema d) = x.leave schema (y.leave schema d) := by
  cases hr : d.reading with
  | error e => rw [leave_of_error hr, leave_of_error hr, leave_of_error hr]
  | ok members =>
    rw [leave_leave_eq h hr hne, leave_leave_eq h hr hne.symm, apply_apply (h members hr) hne]
    cases x.takesEffect schema members <;> cases y.takesEffect schema members <;>
      simp [Bool.or_comm]

/-! ## Any number of changes -/

/-- The document behind changes that are made one after the other under a schema. -/
def leaveAll (schema : Schema) (xs : List FieldChange) (d : Document .table) : Document .table :=
  xs.foldl (fun d x ↦ x.leave schema d) d

private theorem leaveAll_perm {xs ys : List FieldChange} (perm : xs.Perm ys)
    (apart : (xs.map key).Nodup) (h : Orderly d) :
    leaveAll schema xs d = leaveAll schema ys d := by
  induction perm generalizing d with
  | nil => rfl
  | cons x _ ih => exact ih (List.nodup_cons.mp apart).2 h.leave
  | swap x y xs =>
    have hne : y.key ≠ x.key := fun he ↦
      (List.nodup_cons.mp apart).1 (he ▸ List.mem_cons_self)
    exact congrArg (leaveAll schema xs) (leave_leave h hne)
  | trans first _ ih₁ ih₂ =>
    exact (ih₁ apart h).trans (ih₂ ((first.map key).nodup_iff.mp apart) h)

end FieldChange

namespace CheckedDocument

open FieldChange

variable {c : CheckedDocument .table} {xs ys : List FieldChange}

/-- Makes changes one after the other and collects the replies. -/
def change : List FieldChange → CheckedDocument .table → List Reply × CheckedDocument .table
  | [], c => ([], c)
  | x :: xs, c =>
    ((reply x.request c).1 :: (change xs (reply x.request c).2).1,
      (change xs (reply x.request c).2).2)

/-- The members of a reachable document are in order. -/
theorem Reachable.orderly (h : c.Reachable) : Orderly c.document := fun _ hr ↦
  (h.inStep.normal_of_reading hr).1

private theorem change_state (xs : List FieldChange) (c : CheckedDocument .table) :
    (change xs c).2 = ⟨leaveAll c.schema xs c.document, c.schema⟩ := by
  induction xs generalizing c with
  | nil => rfl
  | cons x xs ih =>
    rw [change, ih, reply_request]
    rfl

private theorem reply_behind (h : Orderly c.document) {x y : FieldChange} (hne : x.key ≠ y.key) :
    (reply y.request (reply x.request c).2).1 = (reply y.request c).1 := by
  rw [reply_request x, reply_request y, reply_request y]
  exact congrArg (y.replyFor c.schema) (heldAt_leave h hne)

private theorem change_replies (apart : (xs.map key).Nodup) (h : Orderly c.document) :
    (change xs c).1 = xs.map fun x ↦ (reply x.request c).1 := by
  induction xs generalizing c with
  | nil => rfl
  | cons x xs ih =>
    obtain ⟨new, apart⟩ := List.nodup_cons.mp apart
    have orderly : Orderly (reply x.request c).2.document := by
      rw [reply_request]
      exact h.leave
    have same : xs.map (fun y ↦ (reply y.request (reply x.request c).2).1) =
        xs.map fun y ↦ (reply y.request c).1 := by
      apply List.map_congr_left
      intro y hy
      exact reply_behind h fun he ↦ new (he ▸ List.mem_map_of_mem hy)
    rw [change, ih apart orderly, List.map_cons, same]

/-- A change that takes no effect: it fails, or it finds nothing to remove. -/
def Idle (c : CheckedDocument .table) (x : FieldChange) : Prop :=
  ∀ a, (reply x.request c).1 = .ok a → a = .value? none

private theorem not_idle_of_takesEffect {x : FieldChange} {members : Dictionary Value}
    (hr : c.document.reading = .ok members) (ht : x.takesEffect c.schema members = true) :
    ¬Idle c x := by
  intro idle
  rw [Idle, reply_request, heldAt_of_ok hr] at idle
  cases x with
  | set key v =>
    cases hc : checkSet c.schema key v.normalize with
    | error violation =>
      rw [takesEffect, hc] at ht
      cases ht
    | ok u =>
      have := idle .done (by rw [replyFor, hc]; rfl)
      cases this
  | remove key =>
    obtain ⟨v, hv⟩ := Option.isSome_iff_exists.mp ht
    have := idle (.value? (some v)) (by rw [replyFor, FieldChange.key, hv]; rfl)
    cases this

private theorem document_of_idle {x : FieldChange} (h : Idle c x) :
    (reply x.request c).2.document = c.document ∨
      (reply x.request c).2.document = c.document.afterReading := by
  rw [reply_request]
  dsimp only
  cases hr : c.document.reading with
  | error e => exact .inl (leave_of_error hr)
  | ok members =>
    cases ht : x.takesEffect c.schema members with
    | true => exact absurd h (not_idle_of_takesEffect hr ht)
    | false =>
      rw [leave_of_not_takesEffect hr ht]
      cases x.reads
      · exact .inl rfl
      · exact .inr rfl

private theorem document_of_all_idle (apart : (xs.map key).Nodup) (h : Orderly c.document)
    (idle : ∀ x ∈ xs, Idle c x) : (change xs c).2.document = c.document ∨
      (change xs c).2.document = c.document.afterReading := by
  -- What an idle change leaves was read at most, and reading twice is reading once.
  induction xs generalizing c with
  | nil => exact .inl rfl
  | cons x xs ih =>
    obtain ⟨new, apart⟩ := List.nodup_cons.mp apart
    have orderly : Orderly (reply x.request c).2.document := by
      rw [reply_request]
      exact h.leave
    have still : ∀ y ∈ xs, Idle (reply x.request c).2 y := by
      intro y hy a ha
      have hne : x.key ≠ y.key := fun he ↦ new (he ▸ List.mem_map_of_mem hy)
      exact idle y (List.mem_cons_of_mem _ hy) a ((reply_behind h hne).symm.trans ha)
    have rest := ih apart orderly still
    rw [change]
    rcases document_of_idle (idle x List.mem_cons_self) with same | read
    · rwa [same] at rest
    · rw [read, Document.afterReading_afterReading, or_self] at rest
      exact .inr rest

/-- Of changes of different keys to a reachable document, every one gets in every order the reply
that it gets alone. Every order leaves the same document, which therefore decodes and encodes the
same; and if none of the changes takes effect, what was cached is still there. -/
theorem changes_of_different_keys_commute {c : CheckedDocument .table} (reached : c.Reachable)
    {xs ys : List FieldChange} (perm : xs.Perm ys) (apart : (xs.map key).Nodup) :
    (change xs c).1 = xs.map (fun x ↦ (reply x.request c).1) ∧
      (change ys c).1 = ys.map (fun x ↦ (reply x.request c).1) ∧
      (change ys c).2 = (change xs c).2 ∧
      (decode.run (change ys c).2).answer = (decode.run (change xs c).2).answer ∧
      (encode.run (change ys c).2).answer = (encode.run (change xs c).2).answer ∧
      ((∀ x ∈ xs, Idle c x) → c.document.Undisturbed (change xs c).2.document) := by
  have orderly := reached.orderly
  have same : (change ys c).2 = (change xs c).2 := by
    rw [change_state, change_state, leaveAll_perm perm apart orderly]
  refine ⟨change_replies apart orderly, ?_, same, by rw [same], by rw [same], ?_⟩
  · exact change_replies ((perm.map key).nodup_iff.mp apart) orderly
  · intro idle
    rcases document_of_all_idle apart orderly idle with kept | read
    · rw [kept]
      exact Document.undisturbed_self c.document
    · rw [read]
      exact Document.undisturbed_afterReading c.document

/-- Raw bytes of one field, of which one key is removed and another is set, or refused. -/
theorem removed_and_set_and_refused_in_any_order :
    ∃ c : CheckedDocument .table, c.Reachable ∧ c.document.state = .raw ∧
      (change [.remove "a", .set "b" (.bool true), .set "c" .null] c).1 =
        [.ok (.value? (some .null)), .ok .done, .error (.violation (.extraField "c"))] ∧
      (change [.set "c" .null, .set "b" (.bool true), .remove "a"] c).2 =
        (change [.remove "a", .set "b" (.bool true), .set "c" .null] c).2 ∧
      (change [.set "c" .null, .set "b" (.bool true), .remove "a"] c).2.document =
        .decoded [("b", .bool true)] := by
  let bytes := Json.asciiBytes ['\x7b', '"', 'a', '"', ':', 'n', 'u', 'l', 'l', '\x7d']
  have made : Document.Reachable (.raw bytes : Document .table) :=
    @Document.Reachable.ofRaw .table bytes _ (by rfl)
  have reached := CheckedDocument.Reachable.asTypeUnchecked
    (.table [("a", .any), ("b", .bool)]) made
  have perm : [FieldChange.remove "a", .set "b" (.bool true), .set "c" .null].Perm
      [.set "c" .null, .set "b" (.bool true), .remove "a"] := by
    exact List.reverse_perm [FieldChange.set "c" .null, .set "b" (.bool true), .remove "a"]
  obtain ⟨replies, -, same, -⟩ := changes_of_different_keys_commute reached perm (by decide)
  refine ⟨_, reached, rfl, replies.trans (by rfl), same, by rfl⟩

end CheckedDocument

end SchemaDoc
