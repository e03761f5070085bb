import TwoPhase.Command.Execute
import TwoPhase.Proofs.Encoding
import TwoPhase.Proofs.Locking
import TwoPhase.Proofs.Printing
import TwoPhase.Proofs.Workload

/-!
# Decoding inverts encoding

`Inverts encode decode P` says that `decode` takes back what `encode` makes of a value in
`P`, that it gives no other values, and that printing loses nothing of an encoding. Lists
and optional values keep this (`Inverts.list`, `Inverts.option`), so each record follows
from its fields. `P` is that every number fits 64 bits (`InRange`).

A graph needs two facts more: ascending rows put in one after another make up the same
graph again (`WaitGraph.ofRows_rows`), and vertices have different names.
-/

namespace TwoPhase

/-! ## Words, lists and optional values -/

namespace Json

structure Inverts {α : Type} (encode : α → Json) (decode : Json → Option α) (P : α → Prop) :
    Prop where
  regular : ∀ {a}, P a → (encode a).Regular
  decode_encode : ∀ {a}, P a → decode (encode a) = some a
  of_decode : ∀ {j a}, decode j = some a → P a

section
variable {α β : Type} {f : α → Option β}

theorem mapM_eq_some {g : α → β} {l : List α} (h : ∀ a ∈ l, f a = some (g a)) :
    l.mapM f = some (l.map g) := by
  induction l with
  | nil => rfl
  | cons a l ih =>
    rw [List.forall_mem_cons] at h
    rw [List.mapM_cons, h.1, ih h.2]
    rfl

theorem forall_of_mapM {P : β → Prop} {l : List α} {l' : List β} (h : l.mapM f = some l')
    (hP : ∀ {a b}, f a = some b → P b) : ∀ b ∈ l', P b := by
  induction l generalizing l' with
  | nil =>
    cases h
    exact List.forall_mem_nil P
  | cons a l ih =>
    rw [List.mapM_cons] at h
    obtain ⟨b, hb, h⟩ := Option.bind_eq_some_iff.1 h
    obtain ⟨rest, hrest, h⟩ := Option.bind_eq_some_iff.1 h
    cases h
    exact List.forall_mem_cons.2 ⟨hP hb, ih hrest⟩

end

@[simp] theorem regular_nat (n : Nat) : (nat n).Regular := .int n

@[simp] theorem regular_ofRecord (record : RecordId) : (ofRecord record).Regular := .int _

@[simp] theorem regular_ofValue (value : Value) : (ofValue value).Regular := .int _

theorem regular_obj_iff {fields : List (String × Json)} :
    (obj fields).Regular ↔ (fields.map (·.1)).Nodup ∧ ∀ field ∈ fields, field.2.Regular := by
  constructor
  · rintro ⟨⟩
    exact ⟨‹_›, ‹_›⟩
  · rintro ⟨hnames, h⟩
    exact .obj hnames h

theorem inverts_nat : Inverts nat count? (· < UInt64.size) where
  regular _ := regular_nat _
  decode_encode := count?_nat
  of_decode {j n} h := by
    unfold count? natBelow? at h
    split at h
    · split at h
      · next hrange =>
        cases h
        exact (Int.toNat_lt hrange.1).2 hrange.2
      · cases h
    · cases h

theorem inverts_record : Inverts ofRecord record64? fun _ => True where
  regular _ := regular_ofRecord _
  decode_encode _ := record64?_ofRecord _
  of_decode _ := trivial

theorem inverts_value : Inverts ofValue value64? fun _ => True where
  regular _ := regular_ofValue _
  decode_encode _ := value64?_ofValue _
  of_decode _ := trivial

section
variable {α : Type} {encode : α → Json} {decode : Json → Option α} {P : α → Prop}

theorem Inverts.list (h : Inverts encode decode P) :
    Inverts (ofList encode) (listOf? decode) fun items => ∀ a ∈ items, P a where
  regular {items} hitems := by
    refine .arr fun j hj => ?_
    obtain ⟨a, ha, rfl⟩ := List.mem_map.1 hj
    exact h.regular (hitems a ha)
  decode_encode {items} hitems := by
    have hback : items.mapM (decode ∘ encode) = some (items.map id) :=
      mapM_eq_some fun a ha => h.decode_encode (hitems a ha)
    show (items.map encode).mapM decode = some items
    rw [List.mapM_map, hback, List.map_id]
  of_decode {j items} hj := by
    unfold listOf? at hj
    split at hj
    · exact forall_of_mapM hj h.of_decode
    · cases hj

theorem optional?_of_ne {j : Json} (h : j ≠ .null) : j.optional? decode = (decode j).map some := by
  cases j with
  | null => exact absurd rfl h
  | _ => rfl

theorem Inverts.option (h : Inverts encode decode P) (hnull : ∀ a, encode a ≠ .null) :
    Inverts (ofOption encode) (optional? decode) fun o => ∀ a ∈ o, P a where
  regular {o} ho := by
    cases o with
    | none => exact .null
    | some a => exact h.regular (ho a rfl)
  decode_encode {o} ho := by
    cases o with
    | none => rfl
    | some a =>
      show (encode a).optional? decode = some (some a)
      rw [optional?_of_ne (hnull a), h.decode_encode (ho a rfl)]
      rfl
  of_decode {j o} hj := by
    rintro a rfl
    by_cases hj' : j = .null
    · subst hj'
      cases hj
    · rw [optional?_of_ne hj', Option.map_eq_some_iff] at hj
      obtain ⟨b, hb, hab⟩ := hj
      cases hab
      exact h.of_decode hb

end

theorem inverts_optionalRecord :
    Inverts (ofOption ofRecord) (optional? record64?) fun o => ∀ record ∈ o, True :=
  inverts_record.option fun _ => nofun

theorem inverts_optionalValue :
    Inverts (ofOption ofValue) (optional? value64?) fun o => ∀ value ∈ o, True :=
  inverts_value.option fun _ => nofun

theorem inverts_optionalNat :
    Inverts (ofOption nat) (optional? count?) fun o => ∀ n ∈ o, n < UInt64.size :=
  inverts_nat.option fun _ => nofun

end Json

/-! ## Programs and errors -/

theorem Operation.inverts : Json.Inverts toJson ofJson? fun _ => True where
  regular {op} _ := by
    cases op with
    | read record => simp [toJson, Json.regular_obj_iff]
    | write record value => simp [toJson, Json.regular_obj_iff]
    | commit => exact .str _
  decode_encode _ := ofJson?_toJson _
  of_decode _ := trivial

theorem Program.inverts : Json.Inverts toJson ofJson? fun _ => True where
  regular _ := Operation.inverts.list.regular fun _ _ => trivial
  decode_encode {p} _ := by
    rw [toJson, ofJson?_operations, ofOperations_eq_ok.2 rfl]
    rfl
  of_decode _ := trivial

def Error.InRange : Error → Prop
  | recordOutOfBounds _ size => size < UInt64.size
  | missingCommit operations => operations < UInt64.size
  | operationAfterCommit position => position < UInt64.size
  | unknownTransaction id => id < UInt64.size

namespace Error

-- as with operations, the fields are any that hold the words
theorem ofJson?_recordOutOfBounds {j k : Json} {record : RecordId} {size : Nat}
    (hj : j.record64? = some record) (hk : k.count? = some size) :
    ofJson? (.obj [("RecordOutOfBounds", .obj [("record", j), ("len", k)])]) =
      some (.recordOutOfBounds record size) := by
  simp [ofJson?, Json.alternative?, Json.field?, List.lookup_cons, hj, hk]

theorem ofJson?_missingCommit {j : Json} {n : Nat} (h : j.count? = some n) :
    ofJson? (.obj [("MissingCommit", .obj [("operations", j)])]) = some (.missingCommit n) := by
  simp [ofJson?, Json.alternative?, Json.field?, h]

theorem ofJson?_operationAfterCommit {j : Json} {n : Nat} (h : j.count? = some n) :
    ofJson? (.obj [("OperationAfterCommit", .obj [("position", j)])]) =
      some (.operationAfterCommit n) := by
  simp [ofJson?, Json.alternative?, Json.field?, h]

theorem ofJson?_unknownTransaction {j : Json} {n : Nat} (h : j.count? = some n) :
    ofJson? (.obj [("UnknownTransaction", j)]) = some (.unknownTransaction n) := by
  simp [ofJson?, Json.alternative?, h]

theorem inverts : Json.Inverts toJson ofJson? InRange where
  regular {e} _ := by
    cases e <;> simp [toJson, Json.regular_obj_iff]
  decode_encode {e} h := by
    cases e with
    | recordOutOfBounds record size =>
      exact ofJson?_recordOutOfBounds (Json.record64?_ofRecord record) (Json.count?_nat h)
    | missingCommit operations => exact ofJson?_missingCommit (Json.count?_nat h)
    | operationAfterCommit position => exact ofJson?_operationAfterCommit (Json.count?_nat h)
    | unknownTransaction id => exact ofJson?_unknownTransaction (Json.count?_nat h)
  of_decode {j e} h := by
    unfold ofJson? at h
    simp only [Option.bind_eq_bind, Option.pure_def] at h
    split at h
    · simp only [Option.bind_eq_some_iff] at h
      obtain ⟨_, _, _, _, _, _, size, hsize, he⟩ := h
      cases he
      exact Json.inverts_nat.of_decode hsize
    · simp only [Option.bind_eq_some_iff] at h
      obtain ⟨_, _, n, hn, he⟩ := h
      cases he
      exact Json.inverts_nat.of_decode hn
    · simp only [Option.bind_eq_some_iff] at h
      obtain ⟨_, _, n, hn, he⟩ := h
      cases he
      exact Json.inverts_nat.of_decode hn
    · simp only [Option.bind_eq_some_iff] at h
      obtain ⟨n, hn, he⟩ := h
      cases he
      exact Json.inverts_nat.of_decode hn
    · cases h

end Error

/-! ## Reports -/

theorem EntryKind.inverts : Json.Inverts toJson ofJson? fun _ => True where
  regular _ := .str _
  decode_encode {kind} _ := by
    cases kind <;> rfl
  of_decode _ := trivial

theorem Outcome.inverts : Json.Inverts toJson ofJson? fun _ => True where
  regular {outcome} _ := by
    cases outcome <;> exact .str _
  decode_encode {outcome} _ := by
    cases outcome <;> rfl
  of_decode _ := trivial

structure Entry.InRange (e : Entry) : Prop where
  lsn : e.lsn < UInt64.size
  transaction : e.transaction < UInt64.size
  previous : ∀ lsn ∈ e.previous, lsn < UInt64.size

namespace Entry

theorem ofJson?_fields {j₁ j₂ j₃ j₄ j₅ j₆ j₇ : Json} {e : Entry}
    (hkind : EntryKind.ofJson? j₁ = some e.kind) (hlsn : j₂.count? = some e.lsn)
    (htransaction : j₃.count? = some e.transaction)
    (hrecord : j₄.optional? Json.record64? = some e.record)
    (hold : j₅.optional? Json.value64? = some e.old)
    (hnew : j₆.optional? Json.value64? = some e.new)
    (hprevious : j₇.optional? Json.count? = some e.previous) :
    ofJson? (.obj [("kind", j₁), ("lsn", j₂), ("transaction", j₃), ("record", j₄),
      ("old_value", j₅), ("new_value", j₆), ("prev_lsn", j₇)]) = some e := by
  simp [ofJson?, Json.record?, List.lookup_cons, hkind, hlsn, htransaction, hrecord, hold, hnew,
    hprevious]

theorem inverts : Json.Inverts toJson ofJson? InRange where
  regular {e} h := by
    refine .obj (by simp) ?_
    simp only [List.forall_mem_cons]
    exact ⟨EntryKind.inverts.regular trivial, Json.regular_nat _, Json.regular_nat _,
      Json.inverts_optionalRecord.regular fun _ _ => trivial,
      Json.inverts_optionalValue.regular fun _ _ => trivial,
      Json.inverts_optionalValue.regular fun _ _ => trivial,
      Json.inverts_optionalNat.regular h.previous, List.forall_mem_nil _⟩
  decode_encode h :=
    ofJson?_fields (EntryKind.inverts.decode_encode trivial) (Json.count?_nat h.lsn)
      (Json.count?_nat h.transaction)
      (Json.inverts_optionalRecord.decode_encode fun _ _ => trivial)
      (Json.inverts_optionalValue.decode_encode fun _ _ => trivial)
      (Json.inverts_optionalValue.decode_encode fun _ _ => trivial)
      (Json.inverts_optionalNat.decode_encode h.previous)
  of_decode {j e} h := by
    unfold ofJson? at h
    split at h
    · simp only [Option.bind_eq_bind, Option.pure_def, Option.bind_eq_some_iff] at h
      obtain ⟨kind, -, lsn, hlsn, transaction, htransaction, record, -, old, -, new, -, previous,
        hprevious, he⟩ := h
      cases he
      exact ⟨Json.inverts_nat.of_decode hlsn, Json.inverts_nat.of_decode htransaction,
        Json.inverts_optionalNat.of_decode hprevious⟩
    · cases h

end Entry

namespace Deadlock

structure InRange (d : Deadlock) : Prop where
  cycle : ∀ t ∈ d.cycle, t < UInt64.size
  victim : d.victim < UInt64.size

theorem ofJson?_fields {j₁ j₂ : Json} {d : Deadlock}
    (hcycle : j₁.listOf? Json.count? = some d.cycle) (hvictim : j₂.count? = some d.victim) :
    ofJson? (.obj [("cycle", j₁), ("victim", j₂)]) = some d := by
  simp [ofJson?, Json.record?, List.lookup_cons, hcycle, hvictim]

theorem inverts : Json.Inverts toJson ofJson? InRange where
  regular {d} h := by
    refine .obj (by simp) ?_
    simp only [List.forall_mem_cons]
    exact ⟨Json.inverts_nat.list.regular h.cycle, Json.regular_nat _, List.forall_mem_nil _⟩
  decode_encode h :=
    ofJson?_fields (Json.inverts_nat.list.decode_encode h.cycle) (Json.count?_nat h.victim)
  of_decode {j d} h := by
    unfold ofJson? at h
    split at h
    · simp only [Option.bind_eq_bind, Option.pure_def, Option.bind_eq_some_iff] at h
      obtain ⟨cycle, hcycle, victim, hvictim, hd⟩ := h
      cases hd
      exact ⟨Json.inverts_nat.list.of_decode hcycle, Json.inverts_nat.of_decode hvictim⟩
    · cases h

end Deadlock

theorem Settings.ofJson?_fields {j : Json} {n : Nat} (h : j.natBelow? UInt32.size = some n) :
    ofJson? (.obj [("deadlock_threshold", j)]) = some ⟨UInt32.ofNat n⟩ := by
  simp [ofJson?, Json.record?, h]

theorem Settings.inverts : Json.Inverts toJson ofJson? fun _ => True where
  regular {s} _ := .obj (by simp) (by simp)
  decode_encode {s} _ := by
    rw [toJson, ofJson?_fields (Json.natBelow?_nat s.threshold.toNat_lt)]
    simp
  of_decode _ := trivial

namespace Report

structure InRange (r : Report) : Prop where
  log : ∀ e ∈ r.log, e.InRange
  outcomes : ∀ outcome ∈ r.outcomes, outcome.1 < UInt64.size
  deadlocks : ∀ d ∈ r.deadlocks, d.InRange
  turns : r.turns < UInt64.size

theorem outcomeOfJson?_items {j : Json} {id : Nat} {outcome : Outcome} (h : j.count? = some id) :
    outcomeOfJson? (.arr [j, outcome.toJson]) = some (id, outcome) := by
  simp [outcomeOfJson?, h, Outcome.inverts.decode_encode]

theorem inverts_outcome :
    Json.Inverts outcomeToJson outcomeOfJson? fun outcome => outcome.1 < UInt64.size where
  regular {outcome} _ := by
    refine .arr ?_
    simp only [List.forall_mem_cons]
    exact ⟨Json.regular_nat _, Outcome.inverts.regular trivial, List.forall_mem_nil _⟩
  decode_encode h := outcomeOfJson?_items (Json.count?_nat h)
  of_decode {j outcome} h := by
    unfold outcomeOfJson? at h
    split at h
    · simp only [Option.bind_eq_bind, Option.pure_def, Option.bind_eq_some_iff] at h
      obtain ⟨id, hid, _, -, houtcome⟩ := h
      cases houtcome
      exact Json.inverts_nat.of_decode hid
    · cases h

theorem ofJson?_fields {j₁ j₂ j₃ j₄ j₅ j₆ : Json} {r : Report}
    (hinitial : j₁.listOf? Json.value64? = some r.initialStore)
    (hfinal : j₂.listOf? Json.value64? = some r.finalStore)
    (hlog : j₃.listOf? Entry.ofJson? = some r.log)
    (houtcomes : j₄.listOf? outcomeOfJson? = some r.outcomes)
    (hdeadlocks : j₅.listOf? Deadlock.ofJson? = some r.deadlocks)
    (hturns : j₆.count? = some r.turns) :
    ofJson? (.obj [("initial_store", j₁), ("final_store", j₂), ("log", j₃), ("outcomes", j₄),
      ("deadlocks", j₅), ("turns", j₆)]) = some r := by
  simp [ofJson?, Json.record?, List.lookup_cons, hinitial, hfinal, hlog, houtcomes, hdeadlocks,
    hturns]

theorem inverts : Json.Inverts toJson ofJson? InRange where
  regular {r} h := by
    refine .obj (by simp) ?_
    simp only [List.forall_mem_cons]
    exact ⟨Json.inverts_value.list.regular fun _ _ => trivial,
      Json.inverts_value.list.regular fun _ _ => trivial, Entry.inverts.list.regular h.log,
      inverts_outcome.list.regular h.outcomes, Deadlock.inverts.list.regular h.deadlocks,
      Json.regular_nat _, List.forall_mem_nil _⟩
  decode_encode {r} h :=
    ofJson?_fields (Json.inverts_value.list.decode_encode fun _ _ => trivial)
      (Json.inverts_value.list.decode_encode fun _ _ => trivial)
      (Entry.inverts.list.decode_encode h.log) (inverts_outcome.list.decode_encode h.outcomes)
      (Deadlock.inverts.list.decode_encode h.deadlocks) (Json.count?_nat h.turns)
  of_decode {j r} h := by
    unfold ofJson? at h
    split at h
    · simp only [Option.bind_eq_bind, Option.pure_def, Option.bind_eq_some_iff] at h
      obtain ⟨_, -, _, -, log, hlog, outcomes, houtcomes, deadlocks, hdeadlocks, turns, hturns,
        hr⟩ := h
      cases hr
      exact ⟨Entry.inverts.list.of_decode hlog, inverts_outcome.list.of_decode houtcomes,
        Deadlock.inverts.list.of_decode hdeadlocks, Json.inverts_nat.of_decode hturns⟩
    · cases h

end Report

/-! ## Graphs -/

namespace IdSet

theorem mem_foldl_insert {a : Nat} {l : List Nat} {s : IdSet} :
    a ∈ l.foldl insert s ↔ a ∈ s ∨ a ∈ l := by
  induction l generalizing s with
  | nil => simp
  | cons b l ih =>
    rw [List.foldl_cons, ih, mem_insert, List.mem_cons, or_comm (a := a = b), or_assoc]

theorem mem_ofList {a : Nat} {l : List Nat} : a ∈ ofList l ↔ a ∈ l := by
  simp [ofList, mem_foldl_insert]

theorem ofList_toList (s : IdSet) : ofList s.toList = s :=
  ext_mem fun _ => mem_ofList

end IdSet

theorem Text.natural?_repr (v : Nat) : natural? v.repr.toList = some (v, []) := by
  have hnone : NoDigit [] := nofun
  simpa only [List.append_nil] using natural?_append (natural_repr v) hnone

theorem Text.repr_injective {v w : Nat} (h : v.repr = w.repr) : v = w := by
  have hv := natural?_repr v
  rw [h, natural?_repr w] at hv
  cases hv
  rfl

/-- A row behind all others is added at the end. -/
theorem updateRow_of_lt {v : Nat} {f : IdSet → IdSet} {rows : List Row}
    (h : ∀ row ∈ rows, row.1 < v) : updateRow v f rows = rows ++ [(v, f ∅)] := by
  induction rows with
  | nil => rfl
  | cons row rows ih =>
    rw [List.forall_mem_cons] at h
    rw [updateRow, if_neg (by omega), if_neg (by omega), ih h.2]
    rfl

theorem mem_updateRow {v : Nat} {targets : IdSet} {rows : List Row} {row : Row}
    (h : row ∈ updateRow v (fun _ => targets) rows) : row = (v, targets) ∨ row ∈ rows := by
  induction rows with
  | nil => exact .inl (List.mem_singleton.1 h)
  | cons first rows ih =>
    unfold updateRow at h
    grind

namespace WaitGraph

/-- Every vertex is a number of 64 bits, also one without a row. -/
def InRange (g : WaitGraph) : Prop :=
  ∀ row ∈ g.rows, row.1 < UInt64.size ∧ ∀ t ∈ row.2, t < UInt64.size

theorem rows_foldl_update {rows : List Row} {g : WaitGraph}
    (h : ((g.rows ++ rows).map (·.1)).Pairwise (· < ·)) :
    (rows.foldl (fun g row => g.update row.1 fun _ => row.2) g).rows = g.rows ++ rows := by
  induction rows generalizing g with
  | nil => simp
  | cons row rows ih =>
    have hlt : ∀ before ∈ g.rows, before.1 < row.1 := by
      rw [List.map_append, List.pairwise_append] at h
      exact fun before hmem => h.2.2 _ (List.mem_map_of_mem hmem) _ (by simp)
    have hrow : (g.update row.1 fun _ => row.2).rows = g.rows ++ [row] := updateRow_of_lt hlt
    rw [List.foldl_cons, ih (by rw [hrow]; simpa using h), hrow, List.append_assoc]
    rfl

/-- Rows in ascending order make up the graph again. -/
theorem ofRows_rows (g : WaitGraph) : ofRows g.rows = g := by
  have hrows : (ofRows g.rows).rows = g.rows := rows_foldl_update g.ascending
  generalize ofRows g.rows = g' at hrows
  cases g
  cases g'
  simpa using hrows

theorem mem_rows_foldl_update {rows : List Row} {g : WaitGraph} {row : Row}
    (h : row ∈ (rows.foldl (fun g row => g.update row.1 fun _ => row.2) g).rows) :
    row ∈ g.rows ∨ row ∈ rows := by
  induction rows generalizing g with
  | nil => exact .inl h
  | cons first rows ih =>
    rcases ih h with hmem | hmem
    · rcases mem_updateRow hmem with rfl | hmem
      · exact .inr List.mem_cons_self
      · exact .inl hmem
    · exact .inr (List.mem_cons_of_mem first hmem)

theorem mem_rows_ofRows {rows : List Row} {row : Row} (h : row ∈ (ofRows rows).rows) :
    row ∈ rows :=
  (mem_rows_foldl_update h).resolve_left List.not_mem_nil

theorem vertexOfName?_repr {v : Nat} (h : v < UInt64.size) : vertexOfName? v.repr = some v := by
  unfold vertexOfName?
  simp only [Text.natural?_repr, if_pos h]

theorem lt_of_vertexOfName? {name : String} {v : Nat} (h : vertexOfName? name = some v) :
    v < UInt64.size := by
  unfold vertexOfName? at h
  split at h
  · split at h
    · next hv =>
      cases h
      exact hv
    · cases h
  · cases h

theorem rowOfField?_row {j : Json} {v : Nat} {targets : IdSet} (hv : v < UInt64.size)
    (hj : j.listOf? Json.count? = some targets.toList) :
    rowOfField? (v.repr, j) = some (v, targets) := by
  simp [rowOfField?, vertexOfName?_repr hv, hj, targets.ofList_toList]

theorem inRange_of_rowOfField? {field : String × Json} {row : Row}
    (h : rowOfField? field = some row) :
    row.1 < UInt64.size ∧ ∀ t ∈ row.2, t < UInt64.size := by
  simp only [rowOfField?, Option.bind_eq_bind, Option.pure_def, Option.bind_eq_some_iff] at h
  obtain ⟨v, hv, targets, htargets, hrow⟩ := h
  cases hrow
  refine ⟨lt_of_vertexOfName? hv, fun t ht => ?_⟩
  exact Json.inverts_nat.list.of_decode htargets t (IdSet.mem_ofList.1 ht)

theorem ofJson?_fields {fields : List (String × Json)} {rows : List Row}
    (h : fields.mapM rowOfField? = some rows) :
    ofJson? (.obj [("adj_map", .obj fields)]) = some (ofRows rows) := by
  simp [ofJson?, Json.record?, h]

theorem inverts : Json.Inverts toJson ofJson? InRange where
  regular {g} h := by
    refine .obj (by simp) ?_
    simp only [List.forall_mem_singleton]
    refine .obj ?_ fun field hfield => ?_
    · have hnames : ((g.rows.map (·.1)).map Nat.repr).Nodup :=
        g.ascending.map Nat.repr fun v w hlt heq => Nat.ne_of_lt hlt (Text.repr_injective heq)
      rw [List.map_map] at hnames ⊢
      exact hnames
    · obtain ⟨row, hrow, rfl⟩ := List.mem_map.1 hfield
      exact Json.inverts_nat.list.regular (h row hrow).2
  decode_encode {g} h := by
    have hrows : (g.rows.map fun row => (row.1.repr, Json.ofList .nat row.2.toList)).mapM
        rowOfField? = some (g.rows.map id) := by
      rw [List.mapM_map]
      refine Json.mapM_eq_some fun row hrow => ?_
      exact rowOfField?_row (h row hrow).1 (Json.inverts_nat.list.decode_encode (h row hrow).2)
    refine (ofJson?_fields hrows).trans ?_
    rw [List.map_id, ofRows_rows]
  of_decode {j g} h := by
    unfold ofJson? at h
    split at h
    · obtain ⟨rows, hrows, rfl⟩ := Option.map_eq_some_iff.1 h
      have hall : ∀ row ∈ rows, row.1 < UInt64.size ∧ ∀ t ∈ row.2, t < UInt64.size :=
        Json.forall_of_mapM hrows inRange_of_rowOfField?
      exact fun row hrow => hall row (mem_rows_ofRows hrow)
    · cases h

end WaitGraph

/-! ## Round trips -/

namespace Json

/-- Values in `P` come back from their encoding and from its printed text. What is decoded is in
`P`, whatever it was decoded from, and so comes back as well. -/
structure RoundTrips {α : Type} (encode : α → Json) (decode : Json → Option α) (P : α → Prop) :
    Prop where
  value : ∀ a, P a → decode (encode a) = some a
  text : ∀ a, P a → (read? (encode a).pretty).bind decode = some a
  again : ∀ j a, decode j = some a → P a ∧ decode (encode a) = some a

theorem Inverts.roundTrips {α : Type} {encode : α → Json} {decode : Json → Option α}
    {P : α → Prop} (h : Inverts encode decode P) : RoundTrips encode decode P where
  value _ := h.decode_encode
  text a ha := by
    rw [read?_pretty (h.regular ha)]
    exact h.decode_encode ha
  again j a ha := ⟨h.of_decode ha, h.decode_encode (h.of_decode ha)⟩

end Json

/-- **Decoding inverts encoding**, for every value whose numbers are of 64 bits and for all that a
decoder accepts. The text in which a report is shown as JSON is read back as that report. -/
theorem decoding_inverts_encoding :
    Json.RoundTrips Program.toJson Program.ofJson? (fun _ => True) ∧
    Json.RoundTrips Entry.toJson Entry.ofJson? Entry.InRange ∧
    Json.RoundTrips Deadlock.toJson Deadlock.ofJson? Deadlock.InRange ∧
    Json.RoundTrips Settings.toJson Settings.ofJson? (fun _ => True) ∧
    Json.RoundTrips Error.toJson Error.ofJson? Error.InRange ∧
    Json.RoundTrips WaitGraph.toJson WaitGraph.ofJson? WaitGraph.InRange ∧
    Json.RoundTrips Report.toJson Report.ofJson? Report.InRange ∧
    ∀ report : Report, report.InRange →
      (Json.read? (Command.showReport true report)).bind Report.ofJson? = some report := by
  refine ⟨Program.inverts.roundTrips, Entry.inverts.roundTrips, Deadlock.inverts.roundTrips,
    Settings.inverts.roundTrips, Error.inverts.roundTrips, WaitGraph.inverts.roundTrips,
    Report.inverts.roundTrips, fun report h => ?_⟩
  have hread : Json.read? (Command.showReport true report) = some report.toJson :=
    Json.read?_pretty_append (Report.inverts.regular h) "\n" (.lineBreak []) rfl
  rw [hread]
  exact Report.inverts.decode_encode h

/-- A report with the largest numbers there are, and with entries that lack every part they may
lack or have all. -/
def limitsReport : Report where
  initialStore := [-9223372036854775808, 9223372036854775807]
  finalStore := []
  log := [
    ⟨.abort, 18446744073709551615, 0, none, none, none, none⟩,
    ⟨.read, 0, 18446744073709551615, some 18446744073709551615, some (-1), some 0,
      some 18446744073709551615⟩]
  outcomes := [(18446744073709551615, .aborted), (0, .committed)]
  deadlocks := [⟨[], 0⟩, ⟨[1, 18446744073709551615], 18446744073709551615⟩]
  turns := 18446744073709551615

/-- The report comes back from its text, and so does a deadlock that was given as a list. -/
theorem decoding_inverts_encoding_limits :
    limitsReport.InRange ∧
    (Json.read? (Command.showReport true limitsReport)).bind Report.ofJson? = some limitsReport ∧
    Deadlock.ofJson? (.arr [.arr [.int 3, .int 2], .int 3]) = some ⟨[3, 2], 3⟩ ∧
    Deadlock.ofJson? (Deadlock.toJson ⟨[3, 2], 3⟩) = some ⟨[3, 2], 3⟩ := by
  have hrange : limitsReport.InRange := by
    constructor
    case log =>
      simp only [limitsReport, List.forall_mem_cons]
      exact ⟨⟨by decide, by decide, by simp⟩, ⟨by decide, by decide, by decide⟩,
        List.forall_mem_nil _⟩
    case outcomes => decide
    case deadlocks =>
      simp only [limitsReport, List.forall_mem_cons]
      exact ⟨⟨by decide, by decide⟩, ⟨by decide, by decide⟩, List.forall_mem_nil _⟩
    case turns => decide
  obtain ⟨-, -, hdeadlock, -, -, -, -, hreport⟩ := decoding_inverts_encoding
  have hlist : Deadlock.ofJson? (.arr [.arr [.int 3, .int 2], .int 3]) = some ⟨[3, 2], 3⟩ := by
    decide +kernel
  exact ⟨hrange, hreport limitsReport hrange, hlist, (hdeadlock.again _ _ hlist).2⟩

end TwoPhase
