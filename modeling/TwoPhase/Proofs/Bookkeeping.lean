import TwoPhase.Proofs.Survivors

/-!
# What a ring keeps count of

A ring counts its turns and those who have finished, and each transaction counts its
denials. All of these are shortcuts: they could be found by looking at the transactions
and at the turns taken so far.

* `deniedSince`: the count of denials, read off the turns. Only a finished transaction
  leaves its turn unused (`Reached.step_ne_idle`), so for the others this is the length
  of the current streak (`Reached.denials_eq`).
* `Reached.turn_at`: the order of turns, for every turn there ever was.
* `counters_say_what_happened`: all counters, in every reached ring.
-/

namespace TwoPhase

namespace Step

def isProgress : Step → Bool
  | progressed _ => true
  | _ => false

def isDenial : Step → Bool
  | denied _ _ => true
  | _ => false

end Step

/-- The turns in which `a` was denied, since its last success; `turns` are newest first. -/
def deniedSince (a : Nat) (turns : List Turn) : Nat :=
  (turns.takeWhile fun turn => !(turn.transaction = a && turn.step.isProgress)).countP
    fun turn => turn.transaction = a && turn.step.isDenial

section
variable {store : Store} {programs : List Program} {settings : Settings} {turns : List Turn}
  {db db' : Database} {ts ts' : List Transaction} {p a : Nat} {t : Transaction} {ring : Ring}
  {turn : Turn}

/-! ## Denials -/

/-- A streak is what was denied since the last success, unless a turn was left unused. -/
theorem length_streak
    (h : ∀ turn ∈ turns, turn.transaction = a → turn.step ≠ .idle) :
    (streak a turns).length = deniedSince a turns := by
  induction turns with
  | nil => rfl
  | cons turn rest ih =>
    have hrest := ih fun x hx => h x (List.mem_cons_of_mem _ hx)
    unfold deniedSince at hrest ⊢
    obtain ⟨id, step, deadlock⟩ := turn
    by_cases hid : id = a
    · subst hid
      cases step with
      | idle => exact absurd rfl (h _ List.mem_cons_self rfl)
      | progressed lsn => simp [Step.isProgress]
      | denied denials blockers => simp [Step.isProgress, Step.isDenial, hrest]
    · rw [streak_other (Ne.symm hid)]
      simpa [hid] using hrest

theorem Evolves.denials_of_finished (h : Evolves store programs db ts) :
    ∀ t ∈ ts, t.outcome ≠ none → t.denials = 0 := by
  induction h with
  | start hts =>
    intro t ht _
    obtain ⟨p, hp⟩ := List.mem_iff_getElem?.1 ht
    rw [((Ring.enlist_spec hts).2 p t hp).2]
  | act he ht ha ih =>
    intro x hx hout
    rcases (he.wellFormed.mem_set ht).1 hx with rfl | ⟨hx, -⟩
    · cases ha with
      | denied pending => exact absurd (Transaction.pending?_eq_some.1 pending).1 hout
      | access => rfl
      | commit => rfl
      | abort => rfl
    · exact ih x hx hout

theorem Plays.finished_of_idle {patience : Nat} (hp : Plays patience db ts p turn db' ts')
    (hw : WellFormed store programs db ts) (hidle : turn.step = .idle) :
    ¬ Unfinished ts turn.transaction := by
  cases hp with
  | @idle t ht hp =>
    rintro ⟨x, hx, hid, hout⟩
    obtain ⟨op, hop⟩ := hw.exists_pending hx hout
    rw [hw.eq_of_id hx (List.mem_of_getElem? ht) hid, hp] at hop
    cases hop
  | _ => cases hidle

namespace Ring

/-- Whoever is unfinished has used all its turns. -/
theorem Reached.step_ne_idle (h : Reached store programs settings turns ring)
    (hu : Unfinished ring.transactions a) :
    ∀ turn ∈ turns, turn.transaction = a → turn.step ≠ .idle := by
  have hlasting : Lasting store programs fun _ ts => ¬ Unfinished ts a := lasting_not_unfinished a
  induction h with
  | start => exact nofun
  | turn hr hturn ih =>
    have he := hr.evolves
    have hbefore : Unfinished _ a := by_contra fun hfin => hlasting.turn he hfin hturn hu
    intro x hx hxa hidle
    rcases List.mem_cons.1 hx with rfl | hx
    · exact (he.plays hturn).finished_of_idle he.wellFormed hidle (hxa ▸ hbefore)
    · exact ih hbefore x hx hxa hidle
  | detect hr hd ih => exact ih (by_contra fun hfin => hlasting.detect hr.evolves hfin hd hu)
  | abort hr ha ih => exact ih (by_contra fun hfin => hlasting.abort hr.evolves hfin ha hu)

theorem Reached.denials_eq (h : Reached store programs settings turns ring)
    (ht : t ∈ ring.transactions) :
    t.denials = if t.outcome = none then deniedSince t.id turns else 0 := by
  split
  · next hout =>
    rw [h.traced.denials t ht hout]
    exact length_streak (h.step_ne_idle ⟨t, ht, rfl, hout⟩)
  · next hout => exact h.evolves.denials_of_finished t ht hout

/-! ## Turns -/

theorem Reached.turn_at (h : Reached store programs settings turns ring) :
    ∀ k turn, turns.reverse[k]? = some turn → turn.transaction = k % programs.length + 1 := by
  induction h with
  | start => exact nofun
  | @turn turns _ _ newest hr hturn ih =>
    intro k turn hk
    rw [List.reverse_cons] at hk
    rcases Nat.lt_or_ge k turns.reverse.length with hlt | hge
    · exact ih k turn (by rwa [List.getElem?_append_left hlt] at hk)
    · -- the newest turn
      rw [List.getElem?_append_right hge, List.getElem?_singleton] at hk
      rw [List.length_reverse] at hge hk
      split at hk
      · next hzero =>
        obtain rfl : k = turns.length := by omega
        cases hk
        exact hr.turn_transaction hturn
      · cases hk
  | detect _ _ ih => exact ih
  | abort _ _ ih => exact ih

theorem Reached.turn_eq_none_iff (h : Reached store programs settings turns ring) :
    ring.turn = .ok (ring, none) ↔ ring.isFinished = true := by
  refine ⟨fun hnone => ?_, turn_of_isFinished⟩
  by_contra hopen
  obtain ⟨ring', turn, hturn⟩ := h.exists_turn (Bool.eq_false_iff.2 hopen)
  rw [hnone] at hturn
  cases hturn

end Ring

/-- **Counters say what happened.** In every reached ring as many have finished as have an outcome,
so there is a next turn exactly if somebody has none. The turns are counted, and they have gone
round the ring from the first one on. A finished transaction never changes again, whatever calls
follow, and has no denials; the denials of another are its denied turns since its last success.
The run from here to the end lists every transaction once and in order. -/
theorem counters_say_what_happened (h : Ring.Reached store programs settings turns ring) :
    ring.finished = ring.transactions.countP (·.outcome.isSome) ∧
    (ring.isFinished = true ↔ ∀ t ∈ ring.transactions, t.outcome ≠ none) ∧
    (ring.turn = .ok (ring, none) ↔ ring.isFinished = true) ∧
    (ring.isFinished = false → ∃ ring' turn, ring.turn = .ok (ring', some turn)) ∧
    ring.turns = turns.length ∧
    (∀ k turn, turns.reverse[k]? = some turn → turn.transaction = k % programs.length + 1) ∧
    (∀ t ∈ ring.transactions, t.outcome ≠ none → ∀ last, ring.LeadsTo last →
      t ∈ last.transactions) ∧
    (∀ t ∈ ring.transactions,
      t.denials = if t.outcome = none then deniedSince t.id turns else 0) ∧
    ∃ report, ring.run = .ok report ∧
      report.outcomes.map (·.1) = List.range' 1 programs.length := by
  refine ⟨h.counted.finished_eq, h.counted.isFinished_iff, h.turn_eq_none_iff, h.exists_turn,
    h.counted.turns_eq, h.turn_at, fun t ht hout last hl => ?_, fun t ht => h.denials_eq ht, ?_⟩
  · exact ((lasting_of_finished hout _).leadsTo h.evolves ⟨ht, rfl⟩ hl).1
  · obtain ⟨later, last, hlater, hfin, -⟩ := h.exists_finished
    exact ⟨last.report, h.run_of_turns hlater hfin, (h.append hlater).map_outcomes hfin⟩

/-- After ten turns T1 has committed, T2 was aborted, and T3 has been denied three times. -/
theorem counters_say_what_happened_crossing :
    ∃ (turns : List Turn) (ring : Ring) (report : Report),
      Ring.Reached ⟨[5, 6]⟩ crossing ⟨2⟩ turns ring ∧ ring.turns = turns.length ∧
      ring.transactions.countP (·.outcome.isSome) = 2 ∧ deniedSince 3 turns = 3 ∧
      ring.run = .ok report ∧ report.outcomes.map (·.1) = [1, 2, 3] := by
  obtain ⟨turns, ring, hr, hfinished, t, ht, hid, hout, hdenials⟩ :=
    Ring.exists_reached ⟨[5, 6]⟩ crossing ⟨2⟩ 10
      (fun ring => ring.finished = 2 ∧
        ∃ t ∈ ring.transactions, t.id = 3 ∧ t.outcome = none ∧ t.denials = 3)
      (by decide +kernel)
  obtain ⟨hcount, -, -, -, hturns, -, -, hall, report, hrun, hids⟩ := counters_say_what_happened hr
  refine ⟨turns, ring, report, hr, hturns, hcount.symm.trans hfinished, ?_, hrun, hids⟩
  have := hall t ht
  rw [if_pos hout, hid, hdenials] at this
  exact this.symm

end

end TwoPhase
