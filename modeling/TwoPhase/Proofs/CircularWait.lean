import TwoPhase.Proofs.Calls
import TwoPhase.Proofs.Holding

/-!
# Circular waits

The wait graph keeps the edges of a transaction until the transaction ends, also
those of locks it was granted since. None of them ever leads astray:

* `Waiting`: only unfinished transactions have edges, and an edge to an unfinished
  transaction says that it holds a lock in the way of the pending operation. A
  granted lock leaves no such edge behind, since all who were in the way must have
  ended first.
* `Traced`: between unfinished transactions the edges are those of the current
  `streak` of denials.
* `no_false_deadlocks`: both, for every reached ring, and the circular wait behind
  every deadlock that is found.
-/

namespace TwoPhase

/-- `b` holds a lock that is in the way of the pending operation of `a`. -/
def Obstructs (db : Database) (ts : List Transaction) (b a : Nat) : Prop :=
  ∃ t ∈ ts, t.id = a ∧ ∃ op mode record, t.pending? = some op ∧
    op.request? = some (mode, record) ∧ b ≠ a ∧ (db.locks.lockOf record.toNat).Conflicts b mode

structure Waiting (db : Database) (ts : List Transaction) : Prop where
  source : ∀ a b, db.waits.hasEdge a b = true → Unfinished ts a
  obstructs : ∀ a b, db.waits.hasEdge a b = true → Unfinished ts b → Obstructs db ts b a

/-- If `a` tried its pending operation now, it would be denied, with `b` among the blockers. -/
def WouldBlock (db : Database) (ts : List Transaction) (b a : Nat) : Prop :=
  ∃ t ∈ ts, t.id = a ∧ t.outcome = none ∧ ∃ t' db' denials blockers,
    t.advance db = .ok (t', db', .denied denials blockers) ∧ b ∈ blockers

/-- Every member of `cycle` is blocked by the next one, the last by the first. -/
structure CircularWait (db : Database) (ts : List Transaction) (cycle : List Nat) : Prop where
  nonempty : cycle ≠ []
  nodup : cycle.Nodup
  blocked : ∀ i a b, cycle[i]? = some a → cycle[(i + 1) % cycle.length]? = some b →
    WouldBlock db ts b a

section
variable {store : Store} {programs : List Program} {db db' : Database} {ts : List Transaction}
  {p a b : Nat} {t t' : Transaction} {deed : Deed}

/-! ## Edges and locks -/

/-- An obstruction stays while the one in the way keeps its locks and the other its place. -/
theorem Obstructs.keep (h : Obstructs db ts b a) (hw : WellFormed store programs db ts)
    (ht : ts[p]? = some t) (hid : t'.id = t.id) (hpending : a = t.id → t'.pending? = t.pending?)
    (hlocks : ∀ i mode, (db.locks.lockOf i).Conflicts b mode →
      (db'.locks.lockOf i).Conflicts b mode) : Obstructs db' (ts.set p t') b a := by
  obtain ⟨x, hx, rfl, op, mode, record, hp, hr, hne, hc⟩ := h
  by_cases hxt : x.id = t.id
  · have hx' := hw.eq_of_id hx (List.mem_of_getElem? ht) hxt
    refine ⟨t', (hw.mem_set ht).2 (.inl rfl), hid.trans hxt.symm, op, mode, record, ?_, hr, hne,
      hlocks _ _ hc⟩
    rw [hpending hxt, ← hx']
    exact hp
  · exact ⟨x, (hw.mem_set ht).2 (.inr ⟨hx, hxt⟩), rfl, op, mode, record, hp, hr, hne,
      hlocks _ _ hc⟩

theorem Obstructs.mem_blockers (h : Obstructs db ts b t.id) (hw : WellFormed store programs db ts)
    (ht : ts[p]? = some t) {op : Operation} {mode : LockMode} {record : RecordId}
    (hp : t.pending? = some op) (hr : op.request? = some (mode, record)) :
    b ∈ db.blockers t.id mode record := by
  obtain ⟨x, hx, hid, op', mode', record', hp', hr', hne, hc⟩ := h
  rw [hw.eq_of_id hx (List.mem_of_getElem? ht) hid, hp] at hp'
  cases hp'
  rw [hr] at hr'
  cases hr'
  exact Lock.mem_blockers.2 ⟨hne, hc⟩

namespace Waiting

theorem denied (h : Waiting db ts) (hw : WellFormed store programs db ts) (ht : ts[p]? = some t)
    {op : Operation} {mode : LockMode} {record : RecordId} (pending : t.pending? = some op)
    (request : op.request? = some (mode, record))
    (ha : Acts db t (.denied (db.blockers t.id mode record)) db' t')
    (hlocks : db'.locks = db.locks)
    (hwaits : db'.waits = db.waits.addEdges t.id (db.blockers t.id mode record).toList)
    (hpending : t'.pending? = t.pending?) (hout : t'.outcome = none) :
    Waiting db' (ts.set p t') := by
  have hunf : ∀ u, Unfinished (ts.set p t') u ↔ Unfinished ts u := fun u =>
    hw.unfinished_keep ht ha hout
  constructor
  case source =>
    intro a b hedge
    rw [hwaits, WaitGraph.hasEdge_addEdges] at hedge
    rw [hunf]
    rcases hedge with hold | ⟨rfl, -⟩
    · exact h.source a b hold
    · exact ha.unfinished ht
  case obstructs =>
    intro a b hedge hb
    rw [hwaits, WaitGraph.hasEdge_addEdges] at hedge
    have hobs : Obstructs db ts b a := by
      rcases hedge with hold | ⟨rfl, hnew⟩
      · exact h.obstructs a b hold ((hunf b).1 hb)
      · obtain ⟨hne, hc⟩ := Lock.mem_blockers.1 (IdSet.mem_toList.1 hnew)
        exact ⟨t, List.mem_of_getElem? ht, rfl, op, mode, record, pending, request, hne, hc⟩
    exact hobs.keep hw ht ha.id_eq (fun _ => hpending) fun i m hc => hlocks ▸ hc

theorem finish (h : Waiting db ts) (hw : WellFormed store programs db ts) (ht : ts[p]? = some t)
    (ha : Acts db t deed db' t') (hout : t'.outcome ≠ none)
    (hlocks : db'.locks = db.locks.release t.id) (hwaits : db'.waits = db.waits.clearFrom t.id) :
    Waiting db' (ts.set p t') := by
  have hunf : ∀ u, Unfinished (ts.set p t') u ↔ u ≠ t.id ∧ Unfinished ts u := fun u =>
    hw.unfinished_drop ht ha hout
  constructor
  case source =>
    intro a b hedge
    rw [hwaits, WaitGraph.hasEdge_clearFrom] at hedge
    exact (hunf a).2 ⟨hedge.1, h.source a b hedge.2⟩
  case obstructs =>
    intro a b hedge hb
    rw [hwaits, WaitGraph.hasEdge_clearFrom] at hedge
    obtain ⟨hbt, hb⟩ := (hunf b).1 hb
    refine (h.obstructs a b hedge.2 hb).keep hw ht ha.id_eq (fun hat => absurd hat hedge.1) ?_
    intro i mode hc
    rw [hlocks, LockTable.lockOf_release]
    exact hc.release hbt

theorem access (h : Waiting db ts) (hw : WellFormed store programs db ts) (ht : ts[p]? = some t)
    {op : Operation} {mode : LockMode} {record : RecordId} (pending : t.pending? = some op)
    (request : op.request? = some (mode, record))
    (free : (db.blockers t.id mode record).isEmpty = true) (ha : Acts db t deed db' t')
    (hout : t'.outcome = none) (hlocks : db'.locks = db.locks.take t.id mode record.toNat)
    (hwaits : db'.waits = db.waits) : Waiting db' (ts.set p t') := by
  have hunf : ∀ u, Unfinished (ts.set p t') u ↔ Unfinished ts u := fun u =>
    hw.unfinished_keep ht ha hout
  constructor
  case source =>
    intro a b hedge
    rw [hwaits] at hedge
    exact (hunf a).2 (h.source a b hedge)
  case obstructs =>
    intro a b hedge hb
    rw [hwaits] at hedge
    have hobs := h.obstructs a b hedge ((hunf b).1 hb)
    have hat : a ≠ t.id := by
      rintro rfl
      exact IdSet.isEmpty_iff.1 free b (hobs.mem_blockers hw ht pending request)
    refine hobs.keep hw ht ha.id_eq (fun h => absurd h hat) fun i m hc => ?_
    rw [hlocks, LockTable.lockOf_take (hw.lockSize ▸ hw.record_lt ht pending request)]
    split
    · next hi =>
      subst hi
      exact hc.grant free
    · exact hc

end Waiting

theorem Evolves.waiting (h : Evolves store programs db ts) : Waiting db ts := by
  induction h with
  | start => refine ⟨fun a b hedge => ?_, fun a b hedge => ?_⟩ <;> cases hedge
  | @act db db' ts p t t' deed he ht ha ih =>
    have hw := he.wellFormed
    have hout := ha.outcome_eq_none
    have hacts := ha
    cases ha with
    | denied pending request =>
      exact ih.denied hw ht pending request hacts rfl rfl rfl hout
    | access pending request free =>
      exact ih.access hw ht pending request free hacts hout rfl rfl
    | commit => exact ih.finish hw ht hacts nofun rfl rfl
    | abort => exact ih.finish hw ht hacts nofun rfl rfl

theorem Obstructs.wouldBlock (h : Obstructs db ts b a) (hw : WellFormed store programs db ts) :
    WouldBlock db ts b a := by
  have hobs := h
  obtain ⟨t, ht, rfl, op, mode, record, hp, hr, -, -⟩ := h
  obtain ⟨p, hpos⟩ := List.mem_iff_getElem?.1 ht
  have hmem := hobs.mem_blockers hw hpos hp hr
  refine ⟨t, ht, rfl, (Transaction.pending?_eq_some.1 hp).1, ?_⟩
  rcases Transaction.advance_acts hw hpos with ⟨hnone, -⟩ | ⟨deed, db', t', ha, hne, had⟩
  · rw [hnone] at hp
    cases hp
  · rcases ha.of_request hp hr hne with ⟨hfree, -⟩ | ⟨-, rfl⟩
    · exact absurd hmem (IdSet.isEmpty_iff.1 hfree b)
    · exact ⟨_, _, _, _, had, hmem⟩

/-- **Every deadlock found is a circular wait**, in every state that deeds lead to. -/
theorem Evolves.circularWait (h : Evolves store programs db ts) {d : Deadlock}
    (hd : db.waits.findDeadlock = some d) : CircularWait db ts d.cycle := by
  have hcycle := WaitGraph.isCycle_of_findDeadlock hd
  refine ⟨hcycle.nonempty, hcycle.nodup, fun i a b ha hb => ?_⟩
  obtain ⟨c, -, hout⟩ := hcycle.exists_edge (List.mem_of_getElem? hb)
  have hunf := h.waiting.source b c hout
  exact (h.waiting.obstructs a b (hcycle.edge ha hb) hunf).wouldBlock h.wellFormed

theorem Evolves.victim_unfinished (h : Evolves store programs db ts) {d : Deadlock}
    (hd : db.waits.findDeadlock = some d) : Unfinished ts d.victim := by
  have hcycle := WaitGraph.isCycle_of_findDeadlock hd
  obtain ⟨b, -, hedge⟩ := hcycle.exists_edge (WaitGraph.victim_mem hd)
  exact h.waiting.source _ b hedge

/-! ## Edges and turns -/

/-- The blockers of the denials that `a` got in a row, newest first; `turns` are newest first. -/
def streak (a : Nat) : List Turn → List IdSet
  | [] => []
  | turn :: turns =>
    if turn.transaction = a then
      match turn.step with
      | .denied _ blockers => blockers :: streak a turns
      | _ => []
    else streak a turns

/-- Denials are counted, and edges drawn, for the turns of the current streak. -/
structure Traced (turns : List Turn) (db : Database) (ts : List Transaction) : Prop where
  denials : ∀ t ∈ ts, t.outcome = none → t.denials = (streak t.id turns).length
  edges : ∀ a b, Unfinished ts a → Unfinished ts b →
    (db.waits.hasEdge a b = true ↔ ∃ blockers ∈ streak a turns, b ∈ blockers)

variable {turns : List Turn} {deadlock : Option Deadlock}

@[simp] theorem streak_denied (a denials : Nat) (blockers : IdSet) :
    streak a (⟨a, .denied denials blockers, deadlock⟩ :: turns) = blockers :: streak a turns := by
  rw [streak, if_pos rfl]

@[simp] theorem streak_progressed (a lsn : Nat) :
    streak a (⟨a, .progressed lsn, deadlock⟩ :: turns) = [] := by
  rw [streak, if_pos rfl]

theorem streak_other {turn : Turn} (h : a ≠ turn.transaction) :
    streak a (turn :: turns) = streak a turns := by
  rw [streak, if_neg h.symm]

namespace Traced

/-- The end of a transaction, in a turn or not, changes nothing between the others. -/
theorem finish (h : Traced turns db ts) (hw : WellFormed store programs db ts)
    (ht : ts[p]? = some t) (ha : Acts db t deed db' t') (hout : t'.outcome ≠ none)
    (hwaits : db'.waits = db.waits.clearFrom t.id) {turns' : List Turn}
    (hstreak : ∀ a, a ≠ t.id → streak a turns' = streak a turns) :
    Traced turns' db' (ts.set p t') := by
  constructor
  case denials =>
    intro x hx hxout
    rcases (hw.mem_set ht).1 hx with rfl | ⟨hx, hne⟩
    · exact absurd hxout hout
    · rw [hstreak x.id hne]
      exact h.denials x hx hxout
  case edges =>
    intro a b hua hub
    obtain ⟨hne, hua⟩ := (hw.unfinished_drop ht ha hout).1 hua
    obtain ⟨-, hub⟩ := (hw.unfinished_drop ht ha hout).1 hub
    rw [hwaits, WaitGraph.hasEdge_clearFrom, hstreak a hne, and_iff_right hne]
    exact h.edges a b hua hub

theorem keep (h : Traced turns db ts) (hw : WellFormed store programs db ts)
    (ht : ts[p]? = some t) (ha : Acts db t deed db' t') (hout : t'.outcome = none)
    {turn : Turn} (hturn : turn.transaction = t.id)
    (hself : t'.denials = (streak t.id (turn :: turns)).length)
    (hedges : ∀ a b, Unfinished ts a → Unfinished ts b →
      (db'.waits.hasEdge a b = true ↔
        if a = t.id then ∃ blockers ∈ streak t.id (turn :: turns), b ∈ blockers
        else db.waits.hasEdge a b = true)) :
    Traced (turn :: turns) db' (ts.set p t') := by
  constructor
  case denials =>
    intro x hx hxout
    rcases (hw.mem_set ht).1 hx with rfl | ⟨hx, hne⟩
    · rw [ha.id_eq]
      exact hself
    · rw [streak_other (hturn ▸ hne)]
      exact h.denials x hx hxout
  case edges =>
    intro a b hua hub
    have hua := (hw.unfinished_keep ht ha hout).1 hua
    have hub := (hw.unfinished_keep ht ha hout).1 hub
    rw [hedges a b hua hub]
    split
    · next hat => rw [hat]
    · next hat =>
      rw [streak_other (hturn ▸ hat)]
      exact h.edges a b hua hub

theorem act (h : Traced turns db ts) (he : Evolves store programs db ts) (ht : ts[p]? = some t)
    (ha : Acts db t deed db' t') (hdeed : deed ≠ .done .abort) :
    Traced (⟨t.id, deed.step db t, deadlock⟩ :: turns) db' (ts.set p t') := by
  have hw := he.wellFormed
  have hmem := List.mem_of_getElem? ht
  have hout := ha.outcome_eq_none
  have hacts := ha
  cases ha with
  | denied pending request =>
    refine h.keep hw ht hacts hout rfl ?_ fun a b hua hub => ?_
    · rw [Deed.step, streak_denied, List.length_cons, h.denials t hmem hout]
    · rw [WaitGraph.hasEdge_addEdges]
      split
      · next hat =>
        subst hat
        simp [Deed.step, IdSet.mem_toList, h.edges _ b hua hub, or_comm]
      · next hat => simp [hat]
  | access pending request free =>
    refine h.keep hw ht hacts hout rfl ?_ fun a b hua hub => ?_
    · rw [Deed.step, streak_progressed, List.length_nil]
    · split
      · next hat =>
        subst hat
        simp only [Deed.step, streak_progressed, List.not_mem_nil, false_and, exists_false,
          iff_false]
        intro hedge
        have hobs := he.waiting.obstructs _ b hedge hub
        exact IdSet.isEmpty_iff.1 free b (hobs.mem_blockers hw ht pending request)
      · rfl
  | commit => exact h.finish hw ht hacts (by simp) rfl fun a hne => streak_other hne
  | abort => exact absurd rfl hdeed

variable {ring ring' mid : Ring} {id : Nat} {step : Step} {lsn : Option Nat}

theorem attempt (h : Traced turns ring.database ring.transactions)
    (he : Evolves store programs ring.database ring.transactions)
    (ht : ring.transactions[p]? = some t) (ha : ring.attempt p t = .ok (mid, step)) :
    Traced (⟨t.id, step, deadlock⟩ :: turns) mid.database mid.transactions := by
  have hw := he.wellFormed
  rcases Ring.attempt_cases hw ht ha with ⟨hp, -, rfl⟩ | ⟨deed, db', t', hacts, hne, rfl, rfl⟩
  · -- who has nothing to do is finished, and its streak is of no interest
    have hother : ∀ x ∈ ring.transactions, x.outcome = none → x.id ≠ t.id := by
      intro x hx hxout hid
      obtain ⟨op, hop⟩ := hw.exists_pending hx hxout
      rw [hw.eq_of_id hx (List.mem_of_getElem? ht) hid, hp] at hop
      cases hop
    constructor
    · intro x hx hxout
      rw [streak_other (hother x hx hxout)]
      exact h.denials x hx hxout
    · rintro a b hua hub
      obtain ⟨x, hx, rfl, hxout⟩ := hua
      rw [streak_other (hother x hx hxout)]
      exact h.edges x.id b ⟨x, hx, rfl, hxout⟩ hub
  · exact h.act he ht hacts hne

theorem abort (h : Traced turns ring.database ring.transactions)
    (he : Evolves store programs ring.database ring.transactions)
    (ha : ring.abort id = .ok (ring', lsn)) :
    Traced turns ring'.database ring'.transactions := by
  rcases Ring.abort_cases he.wellFormed ha with ⟨-, rfl, -⟩ | ⟨t, db', t', ht, -, hacts, -, rfl⟩
  · exact h
  · obtain ⟨rfl, rfl⟩ := hacts.abort_inv
    exact h.finish he.wellFormed ht hacts nofun rfl fun a _ => rfl

theorem detect (h : Traced turns ring.database ring.transactions)
    (he : Evolves store programs ring.database ring.transactions)
    (hd : ring.detect = .ok (ring', deadlock)) :
    Traced turns ring'.database ring'.transactions := by
  rcases Ring.detect_cases hd with ⟨-, -, rfl⟩ | ⟨d, ring₁, lsn, -, -, ha, rfl⟩
  · exact h
  · have := h.abort he ha
    exact this

theorem react (h : Traced turns ring.database ring.transactions)
    (he : Evolves store programs ring.database ring.transactions)
    (hr : ring.react step = .ok (ring', deadlock)) :
    Traced turns ring'.database ring'.transactions := by
  rcases Ring.react_cases hr with ⟨-, rfl, -⟩ | ⟨denials, blockers, -, -, hd⟩
  · exact h
  · exact h.detect he hd

end Traced

theorem Ring.Reached.traced {settings : Settings} {ring : Ring}
    (h : Ring.Reached store programs settings turns ring) :
    Traced turns ring.database ring.transactions := by
  induction h with
  | start hs =>
    obtain ⟨ts, hts, rfl⟩ := Ring.start_eq_ok hs
    refine ⟨fun t ht _ => ?_, fun a b _ _ => ?_⟩
    · obtain ⟨p, hp⟩ := List.mem_iff_getElem?.1 ht
      rw [((Ring.enlist_spec hts).2 p t hp).2]
      rfl
    · simp [Database.ofStore, streak]
  | @turn _ _ _ turn hr hturn ih =>
    obtain ⟨-, t, mid, ht, hid, ha, hre⟩ := Ring.turn_cases hturn
    have hmid : Traced (⟨t.id, turn.step, turn.deadlock⟩ :: _) mid.database mid.transactions :=
      ih.attempt hr.evolves ht ha
    rw [← hid] at hmid
    exact hmid.react (hr.evolves.attempt ht ha) hre
  | detect hr hd ih => exact ih.detect hr.evolves hd
  | abort hr ha ih => exact ih.abort hr.evolves ha

/-- A deadlock reported by a turn is found in the state between attempt and abort. -/
theorem Ring.deadlock_of_turn {ring ring' : Ring} {turn : Turn} {d : Deadlock}
    (h : ring.turn = .ok (ring', some turn)) (hd : turn.deadlock = some d) :
    ∃ t mid, ring.transactions[ring.next]? = some t ∧
      ring.attempt ring.next t = .ok (mid, turn.step) ∧
      mid.database.waits.findDeadlock = some d := by
  obtain ⟨-, t, mid, ht, -, ha, hr⟩ := Ring.turn_cases h
  refine ⟨t, mid, ht, ha, ?_⟩
  rw [hd] at hr
  rcases Ring.react_cases hr with ⟨hnone, -, -⟩ | ⟨-, -, -, -, hdetect⟩
  · cases hnone
  · rcases Ring.detect_cases hdetect with ⟨-, hnone, -⟩ | ⟨d', -, -, hfind, hsome, -, -⟩
    · cases hnone
    · exact Option.some.inj hsome ▸ hfind

/-- **No false deadlocks.** In every reached ring the edges between unfinished transactions are
those of the current streaks of denials, the target of such an edge still holds a lock in the way
of its source, and only unfinished transactions have edges. So every deadlock that is found, in
the ring as it stands or within its next turn, is a circular wait at that moment. -/
theorem no_false_deadlocks {settings : Settings} {ring : Ring}
    (h : Ring.Reached store programs settings turns ring) :
    (∀ a b, Unfinished ring.transactions a → Unfinished ring.transactions b →
      (ring.database.waits.hasEdge a b = true ↔ ∃ blockers ∈ streak a turns, b ∈ blockers) ∧
      (ring.database.waits.hasEdge a b = true →
        Obstructs ring.database ring.transactions b a)) ∧
    (∀ a b, ring.database.waits.hasEdge a b = true → Unfinished ring.transactions a) ∧
    (∀ d, ring.database.waits.findDeadlock = some d →
      CircularWait ring.database ring.transactions d.cycle) ∧
    (∀ ring' turn d, ring.turn = .ok (ring', some turn) → turn.deadlock = some d →
      ∃ t mid, ring.transactions[ring.next]? = some t ∧
        ring.attempt ring.next t = .ok (mid, turn.step) ∧
        mid.database.waits.findDeadlock = some d ∧
        CircularWait mid.database mid.transactions d.cycle) := by
  have he := h.evolves
  refine ⟨fun a b hua hub => ⟨h.traced.edges a b hua hub, fun hedge => ?_⟩, he.waiting.source,
    fun d hd => he.circularWait hd, fun ring' turn d hturn hd => ?_⟩
  · exact he.waiting.obstructs a b hedge hub
  · obtain ⟨t, mid, ht, ha, hfind⟩ := Ring.deadlock_of_turn hturn hd
    exact ⟨t, mid, ht, ha, hfind, (he.attempt ht ha).circularWait hfind⟩

/-- After five turns T1 and T2 wait for each other, and the sixth one notices. -/
theorem no_false_deadlocks_crossing :
    ∃ (turns : List Turn) (ring ring' mid : Ring) (turn : Turn),
      Ring.Reached ⟨[5, 6]⟩ crossing ⟨2⟩ turns ring ∧
      (∃ blockers ∈ streak 1 turns, 2 ∈ blockers) ∧
      CircularWait ring.database ring.transactions [1, 2] ∧
      ring.turn = .ok (ring', some turn) ∧ turn.deadlock = some ⟨[1, 2], 2⟩ ∧
      CircularWait mid.database mid.transactions [1, 2] := by
  obtain ⟨turns, ring, hr, h1, h2, hedge, hfind, hturn⟩ :=
    Ring.exists_reached ⟨[5, 6]⟩ crossing ⟨2⟩ 5
      (fun ring =>
        (∃ t ∈ ring.transactions, t.id = 1 ∧ t.outcome = none) ∧
        (∃ t ∈ ring.transactions, t.id = 2 ∧ t.outcome = none) ∧
        ring.database.waits.hasEdge 1 2 = true ∧
        ring.database.waits.findDeadlock = some ⟨[1, 2], 2⟩ ∧
        ring.turn.toOption.any (·.2.any (·.deadlock = some ⟨[1, 2], 2⟩)) = true)
      (by decide +kernel)
  obtain ⟨hedges, -, hnow, hnext⟩ := no_false_deadlocks hr
  cases hres : ring.turn with
  | error e => simp [hres, Except.toOption] at hturn
  | ok result =>
    obtain ⟨ring', turn?⟩ := result
    cases turn? with
    | none => simp [hres, Except.toOption] at hturn
    | some turn =>
      have hd : turn.deadlock = some ⟨[1, 2], 2⟩ := by simpa [hres, Except.toOption] using hturn
      obtain ⟨t, mid, -, -, -, hcircular⟩ := hnext ring' turn _ hres hd
      exact ⟨turns, ring, ring', mid, turn, hr, (hedges 1 2 h1 h2).1.1 hedge, hnow _ hfind, hres,
        hd, hcircular⟩

end

end TwoPhase
