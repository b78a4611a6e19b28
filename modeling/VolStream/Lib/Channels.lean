import Mathlib.Logic.Function.Basic
import Mathlib.Logic.Relation

/-!
# Parties that exchange messages

Each party sends to, or receives from, a party it names, and does nothing else in between. A message waits in the
channel of its two parties until it is received; messages of one tag are received in the order they were sent.
Whether a channel has room for a message is not up to the parties: a send may return at once, or only when the other
party receives.

What the parties do is then independent of the order in which they do it (`Reaches.join`), and one schedule that needs
no room is enough to know them all (`SureRun.follow`).
-/

namespace Channels

open Relation

variable {ι τ α σ : Type} [DecidableEq ι] [DecidableEq τ]

/-- What a party does next. -/
inductive Act (ι τ α σ : Type) where
  | stop
  | send (dest : ι) (tag : τ) (msg : α) (after : σ)
  | recv (source : ι) (tag : τ) (after : α → σ)

/-- The states of the parties, and the messages under way from the first to the second of two, oldest first. -/
@[ext]
structure Net (ι τ α σ : Type) where
  states : ι → σ
  channel : ι × ι → List (τ × α)

/-- The oldest message of a tag, and the others. -/
def takeTag (tag : τ) : List (τ × α) → Option (α × List (τ × α))
  | [] => none
  | m :: rest => if m.1 = tag then some (m.2, rest) else (takeTag tag rest).map fun r => (r.1, m :: r.2)

theorem takeTag_append {tag : τ} {l l' rest : List (τ × α)} {a : α} (h : takeTag tag l = some (a, rest)) :
    takeTag tag (l ++ l') = some (a, rest ++ l') := by
  induction l generalizing rest with
  | nil => cases h
  | cons m l ih =>
    rw [List.cons_append, takeTag]
    rw [takeTag] at h
    split at h
    · next htag =>
      cases h
      rw [if_pos htag]
    · next htag =>
      obtain ⟨⟨a', rest'⟩, hrest, heq⟩ := Option.map_eq_some_iff.mp h
      cases heq
      rw [if_neg htag, ih hrest]
      rfl

theorem takeTag_concat {tag : τ} {l : List (τ × α)} (h : takeTag tag l = none) (a : α) :
    takeTag tag (l ++ [(tag, a)]) = some (a, l) := by
  induction l with
  | nil => simp only [List.nil_append, takeTag, if_true]
  | cons m l ih =>
    rw [takeTag] at h
    split at h
    · cases h
    · next htag => rw [List.cons_append, takeTag, if_neg htag, ih (Option.map_eq_none_iff.mp h), Option.map_some]

section

variable (act : ι → σ → Act ι τ α σ)

/-- What becomes of the parties when one of them sends into its channel, or takes a message that waits there. -/
def advance (i : ι) (n : Net ι τ α σ) : Option (Net ι τ α σ) :=
  match act i (n.states i) with
  | .stop => none
  | .send j tag m s =>
    some ⟨Function.update n.states i s, Function.update n.channel (i, j) (n.channel (i, j) ++ [(tag, m)])⟩
  | .recv j tag k =>
    (takeTag tag (n.channel (j, i))).map fun r =>
      ⟨Function.update n.states i (k r.1), Function.update n.channel (j, i) r.2⟩

/-- Some party goes on. -/
def Move (n n' : Net ι τ α σ) : Prop := ∃ i, advance act i n = some n'

def Reaches : Net ι τ α σ → Net ι τ α σ → Prop := ReflTransGen (Move act)

/-- The parties go on, in so many moves, without a message that has to wait: one takes what waits for it, or two meet,
one to send and the other to receive. -/
inductive SureRun : Nat → Net ι τ α σ → Net ι τ α σ → Prop where
  | refl (n : Net ι τ α σ) : SureRun 0 n n
  | take {i j : ι} {tag : τ} {k : α → σ} {w : Nat} {n n' z : Net ι τ α σ} (hact : act i (n.states i) = .recv j tag k)
      (h : advance act i n = some n') (rest : SureRun w n' z) : SureRun (w + 1) n z
  | meet {i j : ι} {tag : τ} {m : α} {s : σ} {k : α → σ} {w : Nat} {n n' n'' z : Net ι τ α σ}
      (hsend : act i (n.states i) = .send j tag m s) (hrecv : act j (n.states j) = .recv i tag k)
      (hnone : takeTag tag (n.channel (i, j)) = none) (h : advance act i n = some n') (h' : advance act j n' = some n'')
      (rest : SureRun w n'' z) : SureRun (w + 2) n z

/-- A party that does not go on any more: it has stopped, or waits for one that has. -/
def Blocked (n : Net ι τ α σ) (j : ι) : Prop :=
  act j (n.states j) = .stop ∨ ∃ (i : ι) (tag : τ) (k : α → σ), act j (n.states j) = .recv i tag k ∧
    takeTag tag (n.channel (i, j)) = none ∧ act i (n.states i) = .stop

end

variable {act : ι → σ → Act ι τ α σ} {n n' : Net ι τ α σ} {i j : ι}

/-! ## One move -/

theorem advance_of_send {tag : τ} {m : α} {s : σ} (h : act i (n.states i) = .send j tag m s) :
    advance act i n
      = some ⟨Function.update n.states i s, Function.update n.channel (i, j) (n.channel (i, j) ++ [(tag, m)])⟩ := by
  unfold advance
  rw [h]

theorem advance_of_recv {tag : τ} {k : α → σ} (h : act i (n.states i) = .recv j tag k) :
    advance act i n = (takeTag tag (n.channel (j, i))).map fun r =>
      ⟨Function.update n.states i (k r.1), Function.update n.channel (j, i) r.2⟩ := by
  unfold advance
  rw [h]

/-- A move sends into a channel or takes from one. -/
theorem advance_cases (h : advance act i n = some n') :
    (∃ j tag m s, act i (n.states i) = .send j tag m s ∧
      n' = ⟨Function.update n.states i s, Function.update n.channel (i, j) (n.channel (i, j) ++ [(tag, m)])⟩) ∨
    ∃ j tag k a rest, act i (n.states i) = .recv j tag k ∧ takeTag tag (n.channel (j, i)) = some (a, rest) ∧
      n' = ⟨Function.update n.states i (k a), Function.update n.channel (j, i) rest⟩ := by
  cases hact : act i (n.states i) with
  | stop =>
    unfold advance at h
    rw [hact] at h
    cases h
  | send j tag m s =>
    rw [advance_of_send hact] at h
    exact .inl ⟨j, tag, m, s, rfl, (Option.some.inj h).symm⟩
  | recv j tag k =>
    rw [advance_of_recv hact] at h
    obtain ⟨⟨a, rest⟩, htake, heq⟩ := Option.map_eq_some_iff.mp h
    exact .inr ⟨j, tag, k, a, rest, rfl, htake, heq.symm⟩

theorem states_of_advance (h : advance act i n = some n') (hj : j ≠ i) : n'.states j = n.states j := by
  obtain ⟨_, _, _, _, -, rfl⟩ | ⟨_, _, _, _, _, -, -, rfl⟩ := advance_cases h <;> exact Function.update_of_ne hj _ _

theorem channel_of_advance {c : ι × ι} (h : advance act i n = some n') (hfirst : c.1 ≠ i) (hsecond : c.2 ≠ i) :
    n'.channel c = n.channel c := by
  obtain ⟨_, _, _, _, -, rfl⟩ | ⟨_, _, _, _, _, -, -, rfl⟩ := advance_cases h
  · exact Function.update_of_ne (fun hc => hfirst (congrArg Prod.fst hc)) _ _
  · exact Function.update_of_ne (fun hc => hsecond (congrArg Prod.snd hc)) _ _

/-- What one party sends and what another takes do not depend on which of the two goes first. -/
theorem advance_comm {a b : Net ι τ α σ} (hij : i ≠ j) (hi : advance act i n = some a) (hj : advance act j n = some b) :
    ∃ d, advance act j a = some d ∧ advance act i b = some d := by
  have hja := states_of_advance hi hij.symm
  have hib := states_of_advance hj hij
  obtain ⟨di, ti, mi, si, hacti, rfl⟩ | ⟨di, ti, ki, xi, resti, hacti, htakei, rfl⟩ := advance_cases hi
  · obtain ⟨dj, tj, mj, sj, hactj, rfl⟩ | ⟨dj, tj, kj, xj, restj, hactj, htakej, rfl⟩ := advance_cases hj
    · have hne : (i, di) ≠ (j, dj) := fun h => hij (congrArg Prod.fst h)
      rw [advance_of_send (hja ▸ hactj), advance_of_send (hib ▸ hacti)]
      refine ⟨_, rfl, ?_⟩
      simp only [Function.update_of_ne hne, Function.update_of_ne hne.symm]
      rw [Function.update_comm hij, Function.update_comm hne]
    · rw [advance_of_recv (hja ▸ hactj), advance_of_send (hib ▸ hacti)]
      by_cases hsame : (i, di) = (dj, j)
      · -- what is sent goes behind what is taken
        cases hsame
        simp only [Function.update_self, takeTag_append htakej, Option.map_some]
        refine ⟨_, rfl, ?_⟩
        rw [Function.update_comm hij, Function.update_idem, Function.update_idem]
      · simp only [Function.update_of_ne (Ne.symm hsame), htakej, Option.map_some]
        refine ⟨_, rfl, ?_⟩
        rw [Function.update_of_ne hsame, Function.update_comm hij, Function.update_comm hsame]
  · obtain ⟨dj, tj, mj, sj, hactj, rfl⟩ | ⟨dj, tj, kj, xj, restj, hactj, htakej, rfl⟩ := advance_cases hj
    · rw [advance_of_send (hja ▸ hactj), advance_of_recv (hib ▸ hacti)]
      by_cases hsame : (di, i) = (j, dj)
      · cases hsame
        simp only [Function.update_self, takeTag_append htakei, Option.map_some]
        refine ⟨_, rfl, ?_⟩
        rw [Function.update_comm hij, Function.update_idem, Function.update_idem]
      · simp only [Function.update_of_ne hsame, htakei, Option.map_some]
        refine ⟨_, rfl, ?_⟩
        rw [Function.update_of_ne (Ne.symm hsame), Function.update_comm hij, Function.update_comm hsame]
    · have hne : (di, i) ≠ (dj, j) := fun h => hij (congrArg Prod.snd h)
      rw [advance_of_recv (hja ▸ hactj), advance_of_recv (hib ▸ hacti)]
      simp only [Function.update_of_ne hne, Function.update_of_ne hne.symm, htakei, htakej, Option.map_some]
      refine ⟨_, rfl, ?_⟩
      rw [Function.update_comm hij, Function.update_comm hne]

/-! ## All schedules -/

/-- Two schedules can be brought together again. -/
theorem Reaches.join {a b c : Net ι τ α σ} (hb : Reaches act a b) (hc : Reaches act a c) :
    Join (Reaches act) b c := by
  refine church_rosser (fun a b c hb hc => ?_) hb hc
  obtain ⟨i, hi⟩ := hb
  obtain ⟨j, hj⟩ := hc
  by_cases hij : i = j
  · cases hij
    cases hi.symm.trans hj
    exact ⟨b, .refl, .refl⟩
  · obtain ⟨d, hjd, hid⟩ := advance_comm hij hi hj
    exact ⟨d, .single ⟨j, hjd⟩, .single ⟨i, hid⟩⟩

theorem SureRun.reaches {w : Nat} {z : Net ι τ α σ} (h : SureRun act w n z) : Reaches act n z := by
  induction h with
  | refl => exact .refl
  | take _ h _ ih => exact .head ⟨_, h⟩ ih
  | meet _ _ _ h h' _ ih => exact .head ⟨_, h⟩ (.head ⟨_, h'⟩ ih)

theorem SureRun.trans {w w' : Nat} {a b c : Net ι τ α σ} (h : SureRun act w a b) (h' : SureRun act w' b c) :
    SureRun act (w' + w) a c := by
  induction h with
  | refl => exact h'
  | take hact h _ ih => exact .take hact h (ih h')
  | meet hsend hrecv hnone h₁ h₂ _ ih => exact .meet hsend hrecv hnone h₁ h₂ (ih h')

/-- Two parties meet, and nothing waits between them. -/
theorem SureRun.of_meet {tag : τ} {m : α} {s : σ} {k : α → σ} (hsend : act i (n.states i) = .send j tag m s)
    (hrecv : act j (n.states j) = .recv i tag k) (hnone : takeTag tag (n.channel (i, j)) = none) :
    ∃ z, SureRun act 2 n z ∧ z.states i = s ∧ z.states j = k m ∧
      (∀ r, r ≠ i → r ≠ j → z.states r = n.states r) ∧ z.channel = n.channel := by
  have hji : j ≠ i := by
    rintro rfl
    rw [hsend] at hrecv
    cases hrecv
  have hrecv' : act j (Function.update n.states i s j) = .recv i tag k := by
    rwa [Function.update_of_ne hji]
  refine ⟨⟨Function.update (Function.update n.states i s) j (k m), n.channel⟩,
    .meet hsend hrecv hnone (advance_of_send hsend) ?_ (.refl _), ?_, Function.update_self j _ _, fun r hri hrj => ?_, rfl⟩
  · rw [advance_of_recv hrecv']
    simp only [Function.update_self, takeTag_concat hnone, Option.map_some, Function.update_idem,
      Function.update_eq_self]
  · exact (Function.update_of_ne hji.symm _ _).trans (Function.update_self i s n.states)
  · exact (Function.update_of_ne hrj _ _).trans (Function.update_of_ne hri _ _)

/-- A move that a sure run to the end did not start with was one of its moves, or is not in its way. -/
theorem SureRun.after {w : Nat} {z c : Net ι τ α σ} (h : SureRun act w n z) (hz : ∀ i, advance act i z = none)
    (hc : advance act i n = some c) : ∃ w', w = w' + 1 ∧ SureRun act w' c z := by
  induction h generalizing c with
  | refl n =>
    rw [hz i] at hc
    cases hc
  | @take t j tag k w n n' z hact h rest ih =>
    by_cases hi : i = t
    · cases hi
      cases h.symm.trans hc
      exact ⟨w, rfl, rest⟩
    · obtain ⟨d, ht, hid⟩ := advance_comm hi hc h
      obtain ⟨w', rfl, hrun⟩ := ih hz hid
      exact ⟨w' + 1, rfl, .take ((congrArg (act t) (states_of_advance hc (Ne.symm hi))).trans hact) ht hrun⟩
  | @meet s r tag m after k w n n' n'' z hsend hrecv hnone h h' rest ih =>
    have hsr : r ≠ s := by
      rintro rfl
      rw [hsend] at hrecv
      cases hrecv
    by_cases his : i = s
    · cases his
      cases h.symm.trans hc
      exact ⟨w + 1, rfl, .take ((congrArg (act r) (states_of_advance h hsr)).trans hrecv) h' rest⟩
    · by_cases hir : i = r
      · -- there is nothing to receive yet
        cases hir
        rw [advance_of_recv hrecv, hnone] at hc
        cases hc
      · obtain ⟨d, hs, hid⟩ := advance_comm his hc h
        obtain ⟨e, hr, hie⟩ := advance_comm hir hid h'
        obtain ⟨w', rfl, hrun⟩ := ih hz hie
        have hsend' := (congrArg (act s) (states_of_advance hc (Ne.symm his))).trans hsend
        have hrecv' := (congrArg (act r) (states_of_advance hc (Ne.symm hir))).trans hrecv
        have hnone' : takeTag tag (c.channel (s, r)) = none := by
          rwa [channel_of_advance hc (Ne.symm his) (Ne.symm hir)]
        exact ⟨w' + 2, rfl, .meet hsend' hrecv' hnone' hs hr hrun⟩

/-- So many moves were made. -/
inductive RunOf (act : ι → σ → Act ι τ α σ) : Nat → Net ι τ α σ → Net ι τ α σ → Prop where
  | refl (n : Net ι τ α σ) : RunOf act 0 n n
  | step {i : ι} {v : Nat} {n n' z : Net ι τ α σ} (h : advance act i n = some n') (rest : RunOf act v n' z) :
      RunOf act (v + 1) n z

theorem RunOf.reaches {v : Nat} {z : Net ι τ α σ} (h : RunOf act v n z) : Reaches act n z := by
  induction h with
  | refl => exact .refl
  | step h _ ih => exact .head ⟨_, h⟩ ih

/-- If one schedule comes to an end without room in any channel, every schedule comes to the same end, in as many
moves, and needs no room from wherever it is. -/
theorem SureRun.follow {w v : Nat} {z c : Net ι τ α σ} (h : SureRun act w n z) (hz : ∀ i, advance act i z = none)
    (hc : RunOf act v n c) : ∃ w', w = v + w' ∧ SureRun act w' c z := by
  induction hc generalizing w with
  | refl n => exact ⟨w, (Nat.zero_add w).symm, h⟩
  | step hstep _ ih =>
    obtain ⟨w', rfl, hrun⟩ := h.after hz hstep
    obtain ⟨w'', rfl, hrun'⟩ := ih hrun
    exact ⟨w'', by omega, hrun'⟩

/-! ## Parties that have come to an end -/

theorem Blocked.stays (h : Blocked act n j) (hmove : Move act n n') : n'.states j = n.states j ∧ Blocked act n' j := by
  obtain ⟨i, hi⟩ := hmove
  have hji : j ≠ i := by
    rintro rfl
    rcases h with hstop | ⟨s, tag, k, hrecv, hnone, -⟩
    · unfold advance at hi
      rw [hstop] at hi
      cases hi
    · rw [advance_of_recv hrecv, hnone] at hi
      cases hi
  have hsame := states_of_advance hi hji
  refine ⟨hsame, ?_⟩
  rcases h with hstop | ⟨s, tag, k, hrecv, hnone, hstop⟩
  · exact .inl (hsame ▸ hstop)
  · have hsi : s ≠ i := by
      rintro rfl
      unfold advance at hi
      rw [hstop] at hi
      cases hi
    refine .inr ⟨s, tag, k, hsame ▸ hrecv, ?_, states_of_advance hi hsi ▸ hstop⟩
    rwa [channel_of_advance hi hsi hji]

theorem Blocked.states_of_reaches (h : Blocked act n j) (hreach : Reaches act n n') : n'.states j = n.states j := by
  have hboth : n'.states j = n.states j ∧ Blocked act n' j := by
    induction hreach with
    | refl => exact ⟨rfl, h⟩
    | tail _ hmove ih =>
      obtain ⟨hsame, hblocked⟩ := ih.2.stays hmove
      exact ⟨hsame.trans ih.1, hblocked⟩
  exact hboth.1

/-- A party that some schedule leaves with nothing to do ends there in every schedule in which it comes to an end. -/
theorem Blocked.unique {b c : Net ι τ α σ} (hb : Reaches act n b) (hblocked : Blocked act b j) (hc : Reaches act n c)
    (hblocked' : Blocked act c j) : c.states j = b.states j := by
  obtain ⟨d, hbd, hcd⟩ := hb.join hc
  rw [← hblocked.states_of_reaches hbd, ← hblocked'.states_of_reaches hcd]

end Channels
