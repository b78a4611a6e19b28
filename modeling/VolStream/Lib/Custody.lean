import Mathlib.Data.Multiset.AddSub
import Mathlib.Data.List.Nodup

/-!
# Who holds what while requests are out

Requests are issued, and completed later: the ones entered in a queue oldest first, one that could not be entered at
once. A request owns what was handed to it, and that is freed once the request is over. It may also *pull* from
something shared, and nothing shared is released while such a request is out.

`Keeps cap log books` says that a log of events obeys this, never with more than `cap` requests out, and leaves the
books as given. `Sound` says it of the log alone.
-/

namespace Custody

variable {ρ α : Type}

/-- One issued request: what it owns, and whether it pulls from something shared. -/
structure Loan (ρ α : Type) where
  req : ρ
  owns : List α
  pulls : Bool

inductive Event (ρ α : Type) where
  | handed (a : α)
  | issued (loan : Loan ρ α)
  | recorded (r : ρ)
  | completed (r : ρ)
  | completedAtOnce (r : ρ)
  | freed (a : α)
  | shared (a : α)
  | released (a : α)

/-! ## Reading a log -/

def Event.loan? : Event ρ α → Option (Loan ρ α)
  | .issued loan => some loan
  | _ => none

def Event.recorded? : Event ρ α → Option ρ
  | .recorded r => some r
  | _ => none

def Event.drained? : Event ρ α → Option ρ
  | .completed r => some r
  | _ => none

def Event.completed? : Event ρ α → Option ρ
  | .completed r => some r
  | .completedAtOnce r => some r
  | _ => none

def Event.handed? : Event ρ α → Option α
  | .handed a => some a
  | _ => none

def Event.freed? : Event ρ α → Option α
  | .freed a => some a
  | _ => none

def Event.shared? : Event ρ α → Option α
  | .shared a => some a
  | _ => none

def Event.released? : Event ρ α → Option α
  | .released a => some a
  | _ => none

def issues (log : List (Event ρ α)) : List (Loan ρ α) := log.filterMap Event.loan?

def recordings (log : List (Event ρ α)) : List ρ := log.filterMap Event.recorded?

/-- The completions of requests that waited in the queue. -/
def drains (log : List (Event ρ α)) : List ρ := log.filterMap Event.drained?

def completions (log : List (Event ρ α)) : List ρ := log.filterMap Event.completed?

def handovers (log : List (Event ρ α)) : List α := log.filterMap Event.handed?

def frees (log : List (Event ρ α)) : List α := log.filterMap Event.freed?

def shares (log : List (Event ρ α)) : List α := log.filterMap Event.shared?

def releases (log : List (Event ρ α)) : List α := log.filterMap Event.released?

/-- The requests issued and not completed, in issue order. -/
def openLoans [DecidableEq ρ] (log : List (Event ρ α)) : List (Loan ρ α) :=
  (issues log).filter fun loan => loan.req ∉ completions log

section Reading

variable (log : List (Event ρ α)) (e : Event ρ α)

theorem issues_concat : issues (log ++ [e]) = issues log ++ e.loan?.toList := by
  rw [issues, List.filterMap_append]
  cases e <;> rfl

theorem recordings_concat : recordings (log ++ [e]) = recordings log ++ e.recorded?.toList := by
  rw [recordings, List.filterMap_append]
  cases e <;> rfl

theorem drains_concat : drains (log ++ [e]) = drains log ++ e.drained?.toList := by
  rw [drains, List.filterMap_append]
  cases e <;> rfl

theorem completions_concat : completions (log ++ [e]) = completions log ++ e.completed?.toList := by
  rw [completions, List.filterMap_append]
  cases e <;> rfl

theorem handovers_concat : handovers (log ++ [e]) = handovers log ++ e.handed?.toList := by
  rw [handovers, List.filterMap_append]
  cases e <;> rfl

theorem frees_concat : frees (log ++ [e]) = frees log ++ e.freed?.toList := by
  rw [frees, List.filterMap_append]
  cases e <;> rfl

theorem shares_concat : shares (log ++ [e]) = shares log ++ e.shared?.toList := by
  rw [shares, List.filterMap_append]
  cases e <;> rfl

theorem releases_concat : releases (log ++ [e]) = releases log ++ e.released?.toList := by
  rw [releases, List.filterMap_append]
  cases e <;> rfl

end Reading

/-! ## The books -/

/-- The requests in the queue, oldest first; one issued and not yet entered; what is handed over, owned by no request
and not yet freed; what is shared. -/
structure Books (ρ α : Type) where
  queue : List (Loan ρ α)
  loose : Option (Loan ρ α)
  due : Multiset α
  kept : Multiset α

def Books.empty : Books ρ α := ⟨[], none, 0, 0⟩

def Books.loans (b : Books ρ α) : List (Loan ρ α) := b.queue ++ b.loose.toList

inductive Step (cap : ℕ) : Books ρ α → Event ρ α → Books ρ α → Prop where
  | handed {q due kept} (a : α) : Step cap ⟨q, none, due, kept⟩ (.handed a) ⟨q, none, a ::ₘ due, kept⟩
  | issued {q due kept} (loan : Loan ρ α) (h : q.length < cap) :
      Step cap ⟨q, none, (loan.owns : Multiset α) + due, kept⟩ (.issued loan) ⟨q, some loan, due, kept⟩
  | recorded {q due kept} (loan : Loan ρ α) :
      Step cap ⟨q, some loan, due, kept⟩ (.recorded loan.req) ⟨q ++ [loan], none, due, kept⟩
  | completed {q due kept} (loan : Loan ρ α) :
      Step cap ⟨loan :: q, none, due, kept⟩ (.completed loan.req) ⟨q, none, (loan.owns : Multiset α) + due, kept⟩
  | completedAtOnce {q due kept} (loan : Loan ρ α) :
      Step cap ⟨q, some loan, due, kept⟩ (.completedAtOnce loan.req) ⟨q, none, (loan.owns : Multiset α) + due, kept⟩
  | freed {q due kept} (a : α) : Step cap ⟨q, none, a ::ₘ due, kept⟩ (.freed a) ⟨q, none, due, kept⟩
  | shared {q due kept} (a : α) : Step cap ⟨q, none, due, kept⟩ (.shared a) ⟨q, none, due, a ::ₘ kept⟩
  | released {q due kept} (a : α) (h : ∀ loan ∈ q, loan.pulls = false) :
      Step cap ⟨q, none, due, a ::ₘ kept⟩ (.released a) ⟨q, none, due, kept⟩

/-- The log obeys the rules, and leaves these books. -/
inductive Keeps (cap : ℕ) : List (Event ρ α) → Books ρ α → Prop where
  | start : Keeps cap [] .empty
  | step {log : List (Event ρ α)} {b b' : Books ρ α} {e : Event ρ α} (h : Keeps cap log b) (hstep : Step cap b e b') :
      Keeps cap (log ++ [e]) b'

section Keeps

variable {cap : ℕ} {log : List (Event ρ α)} {b : Books ρ α}

theorem Keeps.initial (h : Keeps cap log b) {l : List (Event ρ α)} (hl : l <+: log) : ∃ b', Keeps cap l b' := by
  induction h with
  | start =>
    rw [List.prefix_nil.mp hl]
    exact ⟨.empty, .start⟩
  | step h hstep ih =>
    rcases List.prefix_concat_iff.mp hl with rfl | hl
    · exact ⟨_, .step h hstep⟩
    · exact ih hl

/-- The step that made an event of the log. -/
theorem Keeps.step_at (h : Keeps cap log b) {l l' : List (Event ρ α)} {e : Event ρ α} (hlog : log = l ++ e :: l') :
    ∃ b₁ b₂, Keeps cap l b₁ ∧ Step cap b₁ e b₂ ∧ Keeps cap (l ++ [e]) b₂ := by
  have hl : l ++ [e] <+: log := ⟨l', by rw [hlog, List.append_assoc, List.singleton_append]⟩
  obtain ⟨b', hb'⟩ := h.initial hl
  generalize hl' : l ++ [e] = m at hb'
  cases hb' with
  | start => exact absurd hl' (by simp)
  | step hm hstep =>
    obtain ⟨rfl, hlast⟩ := List.append_inj' hl' rfl
    cases hlast
    exact ⟨_, _, hm, hstep, .step hm hstep⟩

theorem count_cons_eq [DecidableEq α] (a x : α) (s : Multiset α) :
    (x ::ₘ s).count a = s.count a + [x].count a := by
  rw [Multiset.count_cons, List.count_singleton']
  simp only [eq_comm]

-- right after an issue the request is still loose
theorem Keeps.loose_of_issued {loan : Loan ρ α} (h : Keeps cap (log ++ [.issued loan]) b) : b.loose = some loan := by
  generalize hm : log ++ [Event.issued loan] = m at h
  cases h with
  | start => exact absurd hm (by simp)
  | step h hstep =>
    obtain ⟨-, hlast⟩ := List.append_inj' hm rfl
    cases hlast
    cases hstep
    rfl

/-- Whatever was handed over is freed, due to be freed, or owned by a request that is out. -/
theorem Keeps.count_handovers [DecidableEq α] (h : Keeps cap log b) (a : α) :
    (handovers log).count a
      = (frees log).count a + b.due.count a + (b.loans.flatMap Loan.owns).count a := by
  induction h with
  | start => rfl
  | step h hstep ih =>
    rw [handovers_concat, frees_concat]
    cases hstep <;>
      simp only [Books.loans, Event.handed?, Event.freed?, Option.toList, List.append_nil, List.flatMap_append,
        List.flatMap_cons, List.flatMap_nil, List.count_append, Multiset.count_add, Multiset.coe_count,
        count_cons_eq] at ih ⊢ <;>
      omega

/-- Whatever is shared is released or still kept. -/
theorem Keeps.count_shares [DecidableEq α] (h : Keeps cap log b) (a : α) :
    (shares log).count a = (releases log).count a + b.kept.count a := by
  induction h with
  | start => rfl
  | step h hstep ih =>
    rw [shares_concat, releases_concat]
    cases hstep <;>
      simp only [Event.shared?, Event.released?, Option.toList, List.append_nil, List.count_append,
        count_cons_eq] at ih ⊢ <;>
      omega

/-- Whatever was issued is completed or still out. -/
theorem Keeps.count_issues [DecidableEq ρ] (h : Keeps cap log b) (r : ρ) :
    ((issues log).map Loan.req).count r = (completions log).count r + (b.loans.map Loan.req).count r := by
  induction h with
  | start => rfl
  | step h hstep ih =>
    rw [issues_concat, completions_concat]
    cases hstep <;>
      simp only [Books.loans, Event.loan?, Event.completed?, Option.toList, List.append_nil, List.map_append,
        List.map_cons, List.map_nil, List.count_append, List.count_cons, List.count_nil] at ih ⊢ <;>
      omega

/-- The queue is first in, first out. -/
theorem Keeps.recordings_eq (h : Keeps cap log b) : recordings log = drains log ++ b.queue.map Loan.req := by
  induction h with
  | start => rfl
  | step h hstep ih =>
    rw [recordings_concat, drains_concat]
    cases hstep <;> simp_all [Event.recorded?, Event.drained?]

theorem Keeps.length_loans (h : Keeps cap log b) : b.loans.length ≤ cap := by
  induction h with
  | start => exact Nat.zero_le cap
  | step h hstep ih =>
    cases hstep <;>
      simp only [Books.loans, Option.toList, List.append_nil, List.length_append, List.length_cons,
        List.length_nil] at ih ⊢ <;>
      omega

/-! ## Several at once -/

theorem Keeps.handAll {l : List α} {q : List (Loan ρ α)} {due kept : Multiset α}
    (h : Keeps cap log ⟨q, none, due, kept⟩) : Keeps cap (log ++ l.map .handed) ⟨q, none, ↑l + due, kept⟩ := by
  induction l generalizing log due with
  | nil => simpa using h
  | cons a l ih =>
    have hrest := ih (h.step (.handed a))
    rw [List.append_assoc, List.singleton_append] at hrest
    rw [List.map_cons, ← Multiset.cons_coe, Multiset.cons_add, ← Multiset.add_cons]
    exact hrest

theorem Keeps.freeAll {l : List α} {q : List (Loan ρ α)} {due kept : Multiset α}
    (h : Keeps cap log ⟨q, none, ↑l + due, kept⟩) : Keeps cap (log ++ l.map .freed) ⟨q, none, due, kept⟩ := by
  induction l generalizing log with
  | nil => simpa using h
  | cons a l ih =>
    rw [← Multiset.cons_coe, Multiset.cons_add] at h
    have hrest := ih (h.step (.freed a))
    rw [List.append_assoc, List.singleton_append] at hrest
    exact hrest

theorem Keeps.releaseAll {l : List α} {q : List (Loan ρ α)} {due kept : Multiset α}
    (h : Keeps cap log ⟨q, none, due, ↑l + kept⟩) (hquiet : ∀ loan ∈ q, loan.pulls = false) :
    Keeps cap (log ++ l.map .released) ⟨q, none, due, kept⟩ := by
  induction l generalizing log with
  | nil => simpa using h
  | cons a l ih =>
    rw [← Multiset.cons_coe, Multiset.cons_add] at h
    have hrest := ih (h.step (.released a hquiet))
    rw [List.append_assoc, List.singleton_append] at hrest
    exact hrest

theorem issues_append (l l' : List (Event ρ α)) : issues (l ++ l') = issues l ++ issues l' := List.filterMap_append

@[simp] theorem issues_handed (l : List α) : issues (l.map (Event.handed : α → Event ρ α)) = [] := by
  induction l with
  | nil => rfl
  | cons a l ih => exact ih

@[simp] theorem issues_freed (l : List α) : issues (l.map (Event.freed : α → Event ρ α)) = [] := by
  induction l with
  | nil => rfl
  | cons a l ih => exact ih

@[simp] theorem issues_released (l : List α) : issues (l.map (Event.released : α → Event ρ α)) = [] := by
  induction l with
  | nil => rfl
  | cons a l ih => exact ih

end Keeps

/-! ## What the log alone shows -/

section Requests

variable [DecidableEq ρ] {cap : ℕ} {log : List (Event ρ α)} {b : Books ρ α}

-- a request issued once and still out has not been completed
theorem Keeps.not_mem_completions (h : Keeps cap log b) (hnodup : ((issues log).map Loan.req).Nodup) {loan : Loan ρ α}
    (hloan : loan ∈ b.loans) : loan.req ∉ completions log := by
  have hcount := h.count_issues loan.req
  have hone := List.nodup_iff_count_le_one.mp hnodup loan.req
  have hout : 0 < (b.loans.map Loan.req).count loan.req :=
    List.count_pos_iff.mpr (List.mem_map_of_mem hloan)
  exact fun hmem => by
    have hdone := List.count_pos_iff.mpr hmem
    omega

omit [DecidableEq ρ] in
theorem Keeps.loans_sublist (h : Keeps cap log b) : b.loans.Sublist (issues log) := by
  induction h with
  | start => exact .slnil
  | step h hstep ih =>
    rw [issues_concat]
    cases hstep <;>
      simp only [Books.loans, Event.loan?, Option.toList, List.append_nil] at ih ⊢
    all_goals try exact ih
    · exact ih.append (List.Sublist.refl _)
    · exact (List.sublist_cons_self _ _).trans ih
    · exact (List.sublist_append_left _ _).trans ih

/-- The requests out are the ones issued and not completed. -/
theorem Keeps.openLoans_eq (h : Keeps cap log b) (hnodup : ((issues log).map Loan.req).Nodup) :
    openLoans log = b.loans := by
  have hloans := h.loans_sublist
  have hout : ∀ loan ∈ issues log, loan.req ∉ completions log → loan ∈ b.loans := by
    intro loan hmem hdone
    have hcount := h.count_issues loan.req
    have hissued : 0 < ((issues log).map Loan.req).count loan.req := List.count_pos_iff.mpr (List.mem_map_of_mem hmem)
    have hnone : (completions log).count loan.req = 0 := List.count_eq_zero.mpr hdone
    have hpos : 0 < (b.loans.map Loan.req).count loan.req := by omega
    obtain ⟨loan', hmem', heq⟩ := List.mem_map.mp (List.count_pos_iff.mp hpos)
    rw [List.inj_on_of_nodup_map hnodup hmem (hloans.subset hmem') heq.symm]
    exact hmem'
  have hall : b.loans.filter (fun loan => loan.req ∉ completions log) = b.loans :=
    List.filter_eq_self.mpr fun loan hmem => decide_eq_true (h.not_mem_completions hnodup hmem)
  have hsub : b.loans.Sublist (openLoans log) := by
    rw [← hall]
    exact hloans.filter _
  have hlen : (openLoans log).length ≤ b.loans.length := by
    refine (List.subperm_of_subset (hnodup.of_map.filter _) fun loan hmem => ?_).length_le
    obtain ⟨hissued, hdone⟩ := List.mem_filter.mp hmem
    exact hout loan hissued (of_decide_eq_true hdone)
  exact (hsub.eq_of_length_le hlen).symm

end Requests

/-- A log that obeys the rules, in terms of the log: each request is issued once, and completed at most once and not
before; the queue is first in, first out, and a request not entered there is completed next; at most `cap` requests
are out at a time; nothing a request owns is freed while it is out; and nothing shared is released under a request
that pulls. -/
structure Sound [DecidableEq ρ] [DecidableEq α] (cap : ℕ) (log : List (Event ρ α)) : Prop where
  issued_once : ((issues log).map Loan.req).Nodup
  completed_once : (completions log).Nodup
  completed_issued : ∀ l r, l ++ [.completed r] <+: log ∨ l ++ [.completedAtOnce r] <+: log →
    ∃ loan ∈ openLoans l, loan.req = r
  fifo : drains log <+: recordings log
  at_once : ∀ l loan l', log = l ++ .issued loan :: l' →
    ∃ e l'', l' = e :: l'' ∧ (e = .recorded loan.req ∨ e = .completedAtOnce loan.req)
  bounded : ∀ l, l <+: log → (openLoans l).length ≤ cap
  freed_after : ∀ l, l <+: log → ∀ a,
    (frees l).count a + ((openLoans l).flatMap Loan.owns).count a ≤ (handovers l).count a
  released_after : ∀ l a, l ++ [.released a] <+: log → ∀ loan ∈ openLoans l, loan.pulls = false
  released_once : ∀ a, (releases log).count a ≤ (shares log).count a

theorem issues_sublist {l log : List (Event ρ α)} (h : l <+: log) : (issues l).Sublist (issues log) :=
  h.sublist.filterMap _

theorem Keeps.sound [DecidableEq ρ] [DecidableEq α] {cap : ℕ} {log : List (Event ρ α)} {b : Books ρ α}
    (h : Keeps cap log b) (hnodup : ((issues log).map Loan.req).Nodup) (hloose : b.loose = none) : Sound cap log := by
  have hpre : ∀ l, l <+: log → ((issues l).map Loan.req).Nodup :=
    fun l hl => ((issues_sublist hl).map _).nodup hnodup
  refine ⟨hnodup, ?once, ?issued, ?fifo, ?atOnce, ?bounded, ?freed, ?released, ?releasedOnce⟩
  case once =>
    refine List.nodup_iff_count_le_one.mpr fun r => ?_
    have hcount := h.count_issues r
    have hone := List.nodup_iff_count_le_one.mp hnodup r
    omega
  case issued =>
    intro l r hl
    have hout : ∃ b', Keeps cap l b' ∧ ∃ loan ∈ b'.loans, loan.req = r := by
      rcases hl with ⟨l', hl⟩ | ⟨l', hl⟩
      · obtain ⟨b₁, b₂, hb₁, hstep, -⟩ := h.step_at (by rw [← hl, List.append_assoc, List.singleton_append])
        refine ⟨b₁, hb₁, ?_⟩
        cases hstep with
        | completed loan => exact ⟨loan, List.mem_append_left _ List.mem_cons_self, rfl⟩
      · obtain ⟨b₁, b₂, hb₁, hstep, -⟩ := h.step_at (by rw [← hl, List.append_assoc, List.singleton_append])
        refine ⟨b₁, hb₁, ?_⟩
        cases hstep with
        | completedAtOnce loan => exact ⟨loan, List.mem_append_right _ List.mem_cons_self, rfl⟩
    obtain ⟨b', hb', hloan⟩ := hout
    have hl' : l <+: log := by
      rcases hl with hl | hl
      · exact (List.prefix_append l _).trans hl
      · exact (List.prefix_append l _).trans hl
    rw [hb'.openLoans_eq (hpre l hl')]
    exact hloan
  case fifo => exact ⟨_, h.recordings_eq.symm⟩
  case atOnce =>
    intro l loan l' hlog
    cases l' with
    | nil =>
      rw [hlog] at h
      have hlast := h.loose_of_issued
      rw [hloose] at hlast
      cases hlast
    | cons e l'' =>
      obtain ⟨b₁, b₂, hb₁, hstep, -⟩ := h.step_at (l := l ++ [.issued loan]) (by rw [hlog, List.append_cons])
      have hlast := hb₁.loose_of_issued
      refine ⟨e, l'', rfl, ?_⟩
      cases hstep with
      | recorded => exact .inl (by rw [Option.some.inj hlast])
      | completedAtOnce => exact .inr (by rw [Option.some.inj hlast])
      | _ => cases hlast
  case bounded =>
    intro l hl
    obtain ⟨b', hb'⟩ := h.initial hl
    rw [hb'.openLoans_eq (hpre l hl)]
    exact hb'.length_loans
  case freed =>
    intro l hl a
    obtain ⟨b', hb'⟩ := h.initial hl
    have hcount := hb'.count_handovers a
    rw [hb'.openLoans_eq (hpre l hl)]
    omega
  case released =>
    intro l a hl loan hmem
    have hl' : l <+: log := (List.prefix_append l _).trans hl
    obtain ⟨l', hl⟩ := hl
    obtain ⟨b₁, b₂, hb₁, hstep, -⟩ := h.step_at (by rw [← hl, List.append_assoc, List.singleton_append])
    rw [hb₁.openLoans_eq (hpre l hl')] at hmem
    cases hstep with
    | released a hquiet =>
      refine hquiet loan ?_
      simpa [Books.loans] using hmem
  case releasedOnce =>
    intro a
    have hcount := h.count_shares a
    omega

end Custody
