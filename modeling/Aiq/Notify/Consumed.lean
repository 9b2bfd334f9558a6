import Aiq.Notify.Generation
import Aiq.Notify.Ledger

/-!
# Futures become ready by notifications

Without calls of `notify_waiters` the generation does not change (`Plain`). Then a future becomes ready only
with a notification of `notify_one` or `notify_last`, which it consumes: every future that has become ready
has a token of its own in the ledger (`ready_by_notification`).
-/

namespace Aiq.Notify

open Ledger

variable {W : Type} {willWake : W → W → Bool} {cfg : Config} {a : Abs ℕ} {w w' : WorldOf W}
  {i j : TaskId} {e : Event ℕ} {n : Input W} {x : NodeId} {p p' : Pc W} {f : Inner} {L : List Place}

/-! ## Runs without `notify_waiters` -/

/-- The future has not found the generation changed. -/
def FutPc.plain : FutPc W → Bool
  | .stale | .cancel .poll | .canceling .poll | .removing .poll => false
  | _ => true

/-- The control states of a future that is not polled again. -/
def FutPc.over : FutPc W → Bool
  | .idle _ | .canceled | .dropping => true
  | _ => false

/-- The task has not found the generation changed, and does not poll a future that has completed. -/
def Pc.Plain : Pc W → Prop
  | .loaded g => g = 0
  | .fut f p => f.generation = 0 ∧ p.plain = true ∧ (f.completed = true → p.over = true)
  | .single o _ _ => ∀ f c, o = .cancel f c → f.generation = 0 ∧ c = .drop
  | .waiters _ => False
  | _ => True

/-- There has been no call of `notify_waiters`. -/
structure Plain (w : WorldOf W) : Prop where
  generation : w.shared.generation = 0
  pc : ∀ i, (w.pc i).Plain
  data : ∀ x, (w.q.mem.data x).notification ≠ some .all

theorem Plain.init : Plain (init : WorldOf W) where
  generation := rfl
  pc := fun _ => trivial
  data := fun _ h => by cases h

/-- The task has started a poll or an `enable` of a future that has completed. -/
def polledAgain (w w' : WorldOf W) (i : TaskId) : Bool :=
  match w.pc i, w'.pc i with
  | .fut f (.idle _), .fut _ (.state _) => f.completed
  | _, _ => false

theorem Goes.plain (h : Goes willWake w w' i p e p') (hp : p.Plain) (hg : w.shared.generation = 0)
    (hl : p' ≠ .waiters .locked)
    (hn : ∀ f r cx, p = .fut f (.idle r) → p' = .fut f (.state cx) → f.completed = false) : p'.Plain := by
  have hret : ∀ {f : Inner} {c : Cause}, f.generation = 0 → (c.ret f : Pc W).Plain := by
    intro f c hf
    cases c with
    | poll => exact ⟨hf, rfl, fun _ => rfl⟩
    | drop => exact ⟨hf, rfl, fun _ => rfl⟩
  have hret' : ∀ {o : Origin}, (∀ f c, o = .cancel f c → f.generation = 0 ∧ c = .drop) →
      (o.ret : Pc W).Plain := by
    intro o ho
    cases o with
    | user => trivial
    | cancel f c => exact hret (ho f c rfl).1
  have hopen : ∀ {f : Inner} {p p' : FutPc W}, (f.completed = true → p.over = true) → p.over = false →
      f.completed = true → p'.over = true := by
    intro f p p' h hp hc
    rw [h hc] at hp
    cases hp
  cases h with
  | instr p e hv hs => exact hp
  | load hs => exact hg
  | created hs => exact ⟨hg, rfl, fun _ => rfl⟩
  | loaded g hd => exact ⟨hp, rfl, fun _ => rfl⟩
  | goto f p p' hgo hq hv hs =>
    obtain ⟨hf, hpl, ho⟩ := hp
    cases hgo with
    | stale cx hv hne => exact absurd (hg.trans hf.symm) hne
    | late cx st hv hne => exact absurd (hg.trans hf.symm) hne
    | dropCompleted r hc => exact ⟨hf, rfl, fun _ => rfl⟩
    | drop r hc => exact ⟨hf, rfl, fun h => absurd h (by simp [hc])⟩
    | pending cx st hv hg => exact ⟨hf, rfl, fun _ => rfl⟩
    | _ => exact ⟨hf, rfl, hopen ho rfl⟩
  | state f p p' hpp hv hs =>
    obtain ⟨hf, hpl, ho⟩ := hp
    rcases hpp with ⟨r, cx, rfl, rfl⟩ | ⟨c, rfl, rfl⟩
    · exact ⟨hf, rfl, fun h => absurd h (by simp [hn f r cx rfl rfl])⟩
    · cases c with
      | poll => cases hpl
      | drop => exact ⟨hf, rfl, hopen ho rfl⟩
  | done f p c h hd hs => exact hret hp.1
  | remove f p c hpp hv hv' hs =>
    obtain ⟨hf, hpl, ho⟩ := hp
    rcases hpp with ⟨rfl, rfl⟩ | rfl
    · cases hpl
    · cases c with
      | poll => cases hpl
      | drop => exact ⟨hf, rfl, hopen ho rfl⟩
  | removed f c hv hd hs => exact hret hp.1
  | pending f hs => exact ⟨hp.1, rfl, fun _ => rfl⟩
  | forward f c k hv hn hk hs =>
    rintro f' c' hc
    obtain ⟨rfl, rfl⟩ := Origin.cancel.inj hc
    refine ⟨hp.1, ?_⟩
    cases c with
    | poll => cases hp.2.1
    | drop => rfl
  | drop f hs => exact ⟨hp.1, rfl, fun _ => rfl⟩
  | notify k hk hs => simp [Pc.Plain]
  | stored o k e hv hv' he hd hs => exact hret' hp
  | wake o k wk hd hs => exact hret' hp
  | lock hv hs => exact absurd rfl hl
  | fetching f cx hs => exact ⟨hp.1, rfl, hopen hp.2.2 rfl⟩
  | blocked f cx hq hs => exact ⟨hp.1, rfl, hopen hp.2.2 rfl⟩
  | got f cx hq hs => exact ⟨hp.1, rfl, hopen hp.2.2 rfl⟩
  | failed f cx st hs => exact ⟨hp.1, rfl, hopen hp.2.2 rfl⟩
  | fill f wk st hd => exact ⟨hp.1, rfl, hopen hp.2.2 rfl⟩
  | enqueue f cx st hv hs => exact ⟨hp.1, rfl, hopen hp.2.2 rfl⟩
  | refresh f wk hd => exact ⟨hp.1, rfl, hopen hp.2.2 rfl⟩
  | _ => first | exact hp | trivial

theorem Plain.step (h : Plain w) (hw : Reached cfg w a) (hm : (notify willWake).Moves cfg a w i n w' e)
    (hi : n ≠ .notifyWaiters)
    (hn : ∀ f r cx, w.pc i = .fut f (.idle r) → w'.pc i = .fut f (.state cx) → f.completed = false) :
    Plain w' := by
  have hgo := (hw.control.goes hm).1
  have hl : w'.pc i ≠ .waiters .locked := by
    intro hp'
    rcases hgo.locked hp' with hp | hp
    · have := h.pc i
      rw [hp] at this
      exact this
    · exact hi (Client.Moves.input_of_lock hm hp hp')
  have hpc : ∀ j, (w'.pc j).Plain := by
    intro j
    by_cases hj : j = i
    · subst hj
      exact hgo.plain (h.pc j) h.generation hl hn
    · rw [hm.pc_ne hj]
      exact h.pc j
  refine ⟨?_, hpc, fun x => ?_⟩
  · rcases hgo.generation_eq with hg | ⟨hp, -⟩
    · rw [hg, h.generation]
    · have := h.pc i
      rw [hp] at this
      exact this.elim
  · rcases hgo.data (hw.control i) rfl x with hd | ⟨-, ⟨-, hd⟩ | ⟨-, -, hd⟩⟩ | ⟨k, hd, ⟨hk, -⟩, -⟩
    · rw [hd]
      exact h.data x
    · rw [hd]
      simp [Waiter.default]
    · rw [hd]
      exact h.data x
    · rw [hd]
      rintro ⟨⟩
      have hp := hpc i
      have hf := hw.control.step hm i
      generalize w'.pc i = p' at hk hp hf
      unfold Pc.mark at hk
      split at hk
      · exact hf.1 (Option.some.inj hk)
      · exact hf.1 (Option.some.inj hk)
      all_goals first | exact hp | cases hk

/-! ## Completions -/

/-- Every future that has become ready has consumed a notification. -/
def Consumed (w : WorldOf W) (L : List Place) : Prop := ∀ m < w.shared.ready.length, .consumed m ∈ L

theorem mem_record {m : ℕ} (h : .consumed m ∈ L) : .consumed m ∈ record w w' i e L := by
  unfold record
  split
  · exact List.mem_append_left _ h
  all_goals first | exact h | exact mem_move.2 (.inl ⟨h, by simp⟩)

/-- A future that becomes ready has the notification of a `notify_one` or a `notify_last`. -/
theorem Goes.ready (h : Goes willWake w w' i p e p') (hw : Reached cfg w a) (hpl : Plain w) (hp : w.pc i = p)
    (hp' : w'.pc i = p') :
    w'.shared.ready.length = w.shared.ready.length ∨
      w'.shared.ready.length = w.shared.ready.length + 1 ∧ ∃ f p₀, p = .fut f p₀ ∧ p' = f.ready ∧
        (∀ cx, p₀ ≠ .fetching cx) ∧ (p₀ = .got ∨ p₀ ≠ .got ∧ Holds w i) := by
  have hpc := hpl.pc i
  rw [hp] at hpc
  have hsame : ∀ {s : Shared W}, w'.shared = s → s.ready = w.shared.ready →
      w'.shared.ready.length = w.shared.ready.length := fun h h' => by rw [h, h']
  cases h with
  | create hd => exact .inl (hsame hd.shared rfl)
  | loaded g hd => exact .inl (hsame hd.shared rfl)
  | fill f wk st hd => exact .inl (hsame hd.shared rfl)
  | refresh f wk hd => exact .inl (hsame hd.shared rfl)
  | mark o k x hv hv' hd => exact .inl (hsame hd.shared rfl)
  | goto f p p' hg hq hv hs => exact .inl (hsame hs rfl)
  | done f p₀ c hd hdata hs =>
    cases c with
    | drop => exact .inl (hsame hs rfl)
    | poll =>
      refine .inr ⟨by simp [hs, Cause.shared, Shared.complete], f, p₀, rfl, rfl, ?_, ?_⟩
      · rintro cx rfl
        cases hd
      · cases hd with
        | dequeued cx hv =>
          refine .inr ⟨by simp, ?_⟩
          have hopen : f.completed = false := by
            by_contra hc
            cases hpc.2.2 (by simpa using hc)
          have hwaits : (w.pc i).waits = true := by simp [hp, Pc.waits, FutPc.waits, hopen]
          have hmk := hw.ok.marked_of_dequeued (i := i) (by rw [hv])
          obtain ⟨k, hk⟩ := hw.noted.waits hwaits hmk
          refine ⟨hwaits, hmk, k, by rw [hk], ?_⟩
          rintro rfl
          exact hpl.data i (by rw [hk])
        | older cx hg => exact absurd (hpl.generation.trans hpc.1.symm) hg
        | got => exact .inl rfl
        | unqueued c hv => cases hpc.2.1
        | all c hv hn => cases hpc.2.1
  | removed f c hv hd hs =>
    cases c with
    | poll => cases hpc.2.1
    | drop => exact .inl (hsame hs rfl)
  | stored o k e hv hv' he hd hs =>
    cases o with
    | user => exact .inl (hsame hs rfl)
    | cancel f c =>
      obtain ⟨-, rfl⟩ := hpc f c rfl
      exact .inl (hsame hs rfl)
  | wake o k wk hd hs =>
    have hwake : (wk.elim w.shared fun wk => w.shared.wake wk).ready = w.shared.ready := by
      cases wk <;> rfl
    cases o with
    | user => exact .inl (hsame hs hwake)
    | cancel f c =>
      obtain ⟨-, rfl⟩ := hpc f c rfl
      exact .inl (hsame hs hwake)
  | lock hv hs => exact .inl (hsame hs.shared rfl)
  | generation hq hs => exact hpc.elim
  | drained d x ws ws' hv hv' hd hws => exact hpc.elim
  | forEach p p' e hp hr hd hg hs hl hwk hn => exact hpc.elim
  | call wk ws hd hs => exact hpc.elim
  | _ => exact .inl (hsame (Same.shared ‹_›) rfl)

theorem Consumed.step (h : Consumed w L) (hb : Balanced w L) (hw : Reached cfg w a) (hpl : Plain w)
    (hm : (notify willWake).Moves cfg a w i n w' e) : Consumed w' (record w w' i e L) := by
  intro m hlt
  rcases (hw.control.goes hm).1.ready hw hpl rfl rfl with hr | ⟨hr, f, p₀, hp, hp', hne, hheld⟩
  · exact mem_record (h m (hr ▸ hlt))
  · by_cases hm' : m < w.shared.ready.length
    · exact mem_record (h m hm')
    · obtain rfl : m = w.shared.ready.length := by omega
      unfold record
      rw [hp, hp', Inner.ready]
      rcases hheld with rfl | ⟨hgot, hholds⟩
      · exact mem_move.2 (.inr ⟨rfl, hb.complete rfl ⟨f, hp⟩⟩)
      · have := hb.complete (p := .held i) rfl hholds
        split <;> simp_all [mem_move]

/-! ## Every run -/

variable {ls : List (TaskId × Bool × Input W)} {u u' : WorldOf W × List Place}

/-- **Futures become ready by notifications**, in every run without calls of `notify_waiters` in which no
completed future is polled again. Every future that has become ready has consumed a notification of a
`notify_one` or a `notify_last`, and no two of them the same; so no more have become ready than calls have
been made. -/
theorem ready_by_notification
    (h : Lts.Run (fun u l u' => Recorded willWake cfg u l u' ∧ announces l = false ∧
      polledAgain u.1 u'.1 l.1 = false) (init, []) ls u) :
    (∀ m < u.1.shared.ready.length, .consumed m ∈ u.2) ∧ u.1.shared.ready.length ≤ u.2.length := by
  have hc : Consumed u.1 u.2 := by
    obtain ⟨a, -, -, -, -, -, hc⟩ := Lts.Run.prefixed
      (P := fun _ u => ∃ a, Reached cfg u.1 a ∧ Completed u.1 ∧ Listed u.1 a ∧ Balanced u.1 u.2 ∧
        Plain u.1 ∧ Consumed u.1 u.2) h
      ⟨_, Reached.init, Completed.init, Listed.init, Balanced.init, Plain.init, fun _ h => by cases h⟩
      fun ks l u₁ u₂ hl hs hP => by
        obtain ⟨⟨⟨hr, hs⟩, e, he, hrec⟩, hann, hpoll⟩ := hs
        obtain ⟨a₁, hw, hc, hlist, hb, hpl, hcons⟩ := hP
        obtain ⟨e', he', hm⟩ := Client.moves_event hw.ok hs
        obtain rfl := Option.some.inj (he.symm.trans he')
        refine ⟨_, hw.step hm, hc.step hw hm hr, hlist.step hw hc hm, hrec ▸ hb.step hw hc hlist hm,
          hpl.step hw hm ?_ ?_, hrec ▸ hcons.step hb hw hpl hm⟩
        · intro hn
          simp [announces, hn] at hann
        · intro f r cx hp hp'
          simpa [polledAgain, hp, hp'] using hpoll
    exact hc
  refine ⟨hc, ?_⟩
  have hsub : (List.range u.1.shared.ready.length).map Place.consumed ⊆ u.2 := by
    intro q hq
    obtain ⟨m, hm, rfl⟩ := List.mem_map.1 hq
    exact hc m (List.mem_range.1 hm)
  have hnodup : ((List.range u.1.shared.ready.length).map Place.consumed).Nodup :=
    List.nodup_range.map fun _ _ h => Place.consumed.inj h
  simpa using (hnodup.subperm hsub).length_le

/-- After two calls of `notify_one`, the future has consumed the notification of the first. -/
theorem ready_by_notification_twiceActs : ∃ u : WorldOf ℕ × List Place,
    follow (fun w l w' => !announces l && !polledAgain w w' l.1) (fun _ _ => true) ⟨.x86, 0⟩ (init, [])
        (twiceActs ++ acts 0 (.poll 8) 1) = some u ∧
      u.1.shared.ready = [0] ∧ .consumed 0 ∈ u.2 ∧ u.1.shared.ready.length ≤ u.2.length := by
  have hs : (follow (fun w l w' => !announces l && !polledAgain w w' l.1) (fun _ _ => true) ⟨.x86, 0⟩
      (init, []) (twiceActs ++ acts 0 (.poll 8) 1)).isSome = true := by
    decide +kernel
  obtain ⟨u, hu⟩ := Option.isSome_iff_exists.1 hs
  have hl : (follow (fun w l w' => !announces l && !polledAgain w w' l.1) (fun _ _ => true) ⟨.x86, 0⟩
      (init, []) (twiceActs ++ acts 0 (.poll 8) 1)).map (fun u => u.1.shared.ready) = some [0] := by
    decide +kernel
  rw [hu] at hl
  have hready : u.1.shared.ready = [0] := by simpa using hl
  obtain ⟨hc, hle⟩ := ready_by_notification
    ((run_of_follow hu).mono fun _ _ _ h => ⟨h.1, by simpa using h.2⟩)
  exact ⟨u, hu, hready, hc 0 (by simp [hready]), hle⟩

end Aiq.Notify
