import TwoPhase.Proofs.Holders

/-!
# Who is in the way

A denied request comes with its blockers, and they are what is in its way, no more and no
less: it is granted once all of them have let go, and denied as long as one of them has
not, whoever else lets go.

* `LockTable.afterAll`: a table after requests and releases in any order. They do to it
  what they do to owners and sharers kept apart (`LockTable.foldl_hold`).
* `LockTable.mem_blockers_releaseAll`: those in the way after some have let go.
* `LockTable.Denial` and `LockTable.Grant`: what a denial and a grant say and do.
-/

namespace TwoPhase

inductive LockCall where
  | request (t : Nat) (mode : LockMode) (record : RecordId)
  | release (t : Nat)
deriving DecidableEq, Repr

def LockCall.hold (table : List Holders) : LockCall → List Holders
  | .request t mode record => Holders.askFor table t mode record.toNat
  | .release t => table.map (·.release t)

namespace LockTable

def after (table : LockTable) : LockCall → LockTable
  | .request t mode record => stateAfter table (table.request t mode record)
  | .release t => table.release t

def afterAll (table : LockTable) (calls : List LockCall) : LockTable := calls.foldl after table

/-- The table once all of `ts` have let go, one after the other. -/
def releaseAll (table : LockTable) (ts : List Nat) : LockTable := ts.foldl release table

section
variable {table : LockTable} {ts : List Nat} {t u i : Nat} {mode : LockMode} {record : RecordId}

/-! ## Calls -/

@[simp] theorem size_after (table : LockTable) (call : LockCall) :
    (table.after call).size = table.size := by
  cases call with
  | release t => exact size_release table t
  | request t mode record =>
    rcases Nat.lt_or_ge record.toNat table.size with hlt | hge
    · rw [after, request_of_lt hlt]
      split
      · exact size_take table t mode record.toNat
      · rfl
    · rw [after, request_of_ge hge]
      rfl

@[simp] theorem size_afterAll (table : LockTable) (calls : List LockCall) :
    (table.afterAll calls).size = table.size := by
  unfold afterAll
  induction calls generalizing table with
  | nil => rfl
  | cons call rest ih => rw [List.foldl_cons, ih, size_after]

theorem hold_holders (table : LockTable) (call : LockCall) :
    call.hold table.holders = (table.after call).holders := by
  cases call with
  | release t => exact holders_release table t
  | request t mode record =>
    rcases Nat.lt_or_ge record.toNat table.size with hlt | hge
    · rw [LockCall.hold, askFor_of_lt hlt, after, request_of_lt hlt]
      split <;> rfl
    · rw [LockCall.hold, askFor_of_ge hge, after, request_of_ge hge]
      rfl

theorem foldl_hold (table : LockTable) (calls : List LockCall) :
    calls.foldl LockCall.hold table.holders = (table.afterAll calls).holders := by
  unfold afterAll
  induction calls generalizing table with
  | nil => rfl
  | cons call rest ih => rw [List.foldl_cons, List.foldl_cons, hold_holders, ih]

/-! ## Letting go -/

@[simp] theorem size_releaseAll (table : LockTable) (ts : List Nat) :
    (table.releaseAll ts).size = table.size := by
  unfold releaseAll
  induction ts generalizing table with
  | nil => rfl
  | cons t rest ih => rw [List.foldl_cons, ih, size_release]

theorem conflicts_releaseAll :
    ((table.releaseAll ts).lockOf i).Conflicts u mode ↔
      u ∉ ts ∧ (table.lockOf i).Conflicts u mode := by
  unfold releaseAll
  induction ts generalizing table with
  | nil => simp
  | cons t rest ih =>
    rw [List.foldl_cons, ih, lockOf_release, Lock.conflicts_release, List.mem_cons, not_or,
      and_left_comm, and_assoc]

/-- Of those in the way, those are left that have not let go. -/
theorem mem_blockers_releaseAll :
    u ∈ ((table.releaseAll ts).lockOf i).blockers t mode ↔
      u ∉ ts ∧ u ∈ (table.lockOf i).blockers t mode := by
  rw [Lock.mem_blockers, conflicts_releaseAll, Lock.mem_blockers, and_left_comm]

/-! ## Denials and grants -/

/-- What it means that `blockers` are in the way of `t` taking `record` in `mode`. -/
structure Denial (table : LockTable) (t : Nat) (mode : LockMode) (record : RecordId)
    (blockers : IdSet) : Prop where
  someone : ∃ u, u ∈ blockers
  ascending : blockers.toList.Pairwise (· < ·)
  notSelf : t ∉ blockers
  /-- When all have let go, perhaps others too, in any order, nothing is in the way. -/
  lifted : ∀ ts, (∀ u ∈ blockers, u ∈ ts) →
    ∃ table', (table.releaseAll ts).request t mode record = .ok (table', .granted)
  /-- As long as one has not let go, whoever else has, those who have not are in the way. -/
  lasting : ∀ ts, (∃ u ∈ blockers, u ∉ ts) →
    ∃ left : IdSet, (∀ u, u ∈ left ↔ u ∈ blockers ∧ u ∉ ts) ∧
      (table.releaseAll ts).request t mode record = .ok (table.releaseAll ts, .denied left)

/-- What a grant to `t` makes of a table: `t` holds `record` as it asked, or for itself, and all
else is as it was. -/
structure Grant (table : LockTable) (t : Nat) (mode : LockMode) (record : RecordId)
    (table' : LockTable) : Prop where
  size : table'.size = table.size
  elsewhere : ∀ i, i ≠ record.toNat → table'.lockOf i = table.lockOf i
  owners : ∀ u, u ≠ t → ((table'.lockOf record.toNat).owner? = some u ↔
    (table.lockOf record.toNat).owner? = some u)
  sharers : ∀ u, u ≠ t → (u ∈ (table'.lockOf record.toNat).sharers ↔
    u ∈ (table.lockOf record.toNat).sharers)
  held : (table'.lockOf record.toNat).owner? = some t ∨
    mode = .shared ∧ t ∈ (table'.lockOf record.toNat).sharers

theorem request_eq_granted (hlt : record.toNat < table.size)
    (h : ((table.lockOf record.toNat).blockers t mode).isEmpty = true) :
    table.request t mode record = .ok (table.take t mode record.toNat, .granted) := by
  rw [request_of_lt hlt, if_pos h]

theorem request_eq_denied (hlt : record.toNat < table.size)
    (h : u ∈ (table.lockOf record.toNat).blockers t mode) :
    table.request t mode record =
      .ok (table, .denied ((table.lockOf record.toNat).blockers t mode)) := by
  rw [request_of_lt hlt, if_neg fun hempty => IdSet.isEmpty_iff.1 hempty u h]

theorem denial (hlt : record.toNat < table.size)
    (h : u ∈ (table.lockOf record.toNat).blockers t mode) :
    table.Denial t mode record ((table.lockOf record.toNat).blockers t mode) where
  someone := ⟨u, h⟩
  ascending := IdSet.ascending _
  notSelf hself := (Lock.mem_blockers.1 hself).1 rfl
  lifted ts hall := by
    refine ⟨_, request_eq_granted (by rwa [size_releaseAll]) (IdSet.isEmpty_iff.2 fun v hv => ?_)⟩
    obtain ⟨hstays, hv⟩ := mem_blockers_releaseAll.1 hv
    exact hstays (hall v hv)
  lasting ts := by
    rintro ⟨v, hv, hstays⟩
    refine ⟨_, fun w => ?_,
      request_eq_denied (by rwa [size_releaseAll]) (mem_blockers_releaseAll.2 ⟨hstays, hv⟩)⟩
    rw [mem_blockers_releaseAll, and_comm]

theorem grant (hlt : record.toNat < table.size)
    (h : ((table.lockOf record.toNat).blockers t mode).isEmpty = true) :
    table.Grant t mode record (table.take t mode record.toNat) where
  size := size_take table t mode record.toNat
  elsewhere i hi := by rw [lockOf_take hlt, if_neg hi.symm]
  owners u hu := by
    rw [lockOf_take hlt, if_pos rfl, Lock.owner?_grant h]
    exact or_iff_left fun hself => hu hself.2
  sharers u hu := by
    rw [lockOf_take hlt, if_pos rfl]
    exact Lock.mem_sharers_grant_other h hu
  held := by
    rw [lockOf_take hlt, if_pos rfl]
    exact Lock.owner?_grant_self_or h

/-- What an answer says: who is in the way and what comes of it. -/
structure Answer (table : LockTable) (t : Nat) (mode : LockMode) (record : RecordId)
    (table' : LockTable) (verdict : Verdict) : Prop where
  denied_iff : (∃ blockers, verdict = .denied blockers) ↔
    ∃ u, u ≠ t ∧ (table.lockOf record.toNat).Conflicts u mode
  denied : ∀ blockers, verdict = .denied blockers →
    table' = table ∧ table.Denial t mode record blockers
  granted : verdict = .granted → table.Grant t mode record table'

theorem exists_answer (hlt : record.toNat < table.size) (t : Nat) (mode : LockMode) :
    ∃ table' verdict, table.request t mode record = .ok (table', verdict) ∧
      ((table.lockOf record.toNat).holders.ask t mode).2 = verdict ∧
      table.Answer t mode record table' verdict := by
  rw [Lock.ask_holders]
  by_cases h : ((table.lockOf record.toNat).blockers t mode).isEmpty = true
  · refine ⟨_, .granted, request_eq_granted hlt h, by rw [if_pos h], ⟨?_, nofun, ?_⟩⟩
    · refine iff_of_false nofun ?_
      rintro ⟨u, hu, hc⟩
      exact Lock.not_conflicts h hu hc
    · exact fun _ => grant hlt h
  · obtain ⟨u, hu⟩ := IdSet.exists_mem h
    refine ⟨_, .denied _, request_eq_denied hlt hu, by rw [if_neg h], ⟨?_, ?_, nofun⟩⟩
    · exact iff_of_true ⟨_, rfl⟩ ⟨u, Lock.mem_blockers.1 hu⟩
    · rintro blockers hdenied
      cases hdenied
      exact ⟨rfl, denial hlt hu⟩

end

end LockTable

/-- **Blockers are exactly the obstacle.** Let any requests and releases be made to a table of `n`
free locks, and then one more request for a record that there is. It is denied just if another has
the record for itself or, should the request be exclusive, shares it. A denial changes nothing, and
the request is granted once all its blockers have let go but not before; a grant changes what the
requester holds of that record and nothing else. Owners and sharers kept apart agree with the table
and its answer. -/
theorem blockers_exactly_obstruct (n : Nat) (calls : List LockCall) (t : Nat) (mode : LockMode)
    (record : RecordId) (hlt : record.toNat < n) :
    ∃ held table' verdict,
      calls.foldl LockCall.hold (List.replicate n .free) =
        ((LockTable.ofSize n).afterAll calls).holders ∧
      ((LockTable.ofSize n).afterAll calls).holders[record.toNat]? = some held ∧
      (held.ask t mode).2 = verdict ∧
      ((LockTable.ofSize n).afterAll calls).request t mode record = .ok (table', verdict) ∧
      ((LockTable.ofSize n).afterAll calls).Answer t mode record table' verdict := by
  have hsize : record.toNat < ((LockTable.ofSize n).afterAll calls).size := by
    rwa [LockTable.size_afterAll, LockTable.size_ofSize]
  obtain ⟨table', verdict, hrequest, hask, hanswer⟩ := LockTable.exists_answer hsize t mode
  refine ⟨_, table', verdict, ?_, LockTable.getElem?_holders hsize, hask, hrequest, hanswer⟩
  rw [← LockTable.holders_ofSize, LockTable.foldl_hold]

/-- T1, T2 and T3 share a record that T1 then wants for itself: T2 and T3 are in its way. -/
theorem blockers_exactly_obstruct_upgrade :
    ∃ table : LockTable,
      (LockTable.ofSize 1).afterAll [.request 3 .shared 0, .request 1 .shared 0,
        .request 2 .shared 0] = table ∧
      table.request 1 .exclusive 0 = .ok (table, .denied (.ofList [2, 3])) ∧
      table.Denial 1 .exclusive 0 (.ofList [2, 3]) := by
  refine ⟨_, rfl, by decide, ?_⟩
  obtain ⟨held, table', verdict, -, hheld, hask, -, hanswer⟩ :=
    blockers_exactly_obstruct 1
      [.request 3 .shared 0, .request 1 .shared 0, .request 2 .shared 0] 1 .exclusive 0 (by decide)
  have hshared : held = ⟨none, .ofList [1, 2, 3]⟩ := Option.some.inj (hheld.symm.trans (by decide))
  have hdenied : verdict = .denied (.ofList [2, 3]) := by
    rw [← hask, hshared]
    decide
  exact (hanswer.denied _ hdenied).2

end TwoPhase
