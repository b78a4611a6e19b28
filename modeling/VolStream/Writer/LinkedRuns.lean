import VolStream.Writer.LinkChains

/-!
# Links over whole runs

What one step keeps (`StepReplayed.follows`), over every run whose steps keep the links in order, and for
every reader of the file the run leaves. A link to a link shows what the condition excludes: the dataset
at the end of the chain is written again, the link in between is made again, and the first one still
opens the old copy.
-/

namespace VolStream

/-! ## The index of earlier steps -/

/-- A step appended later does not change what resolves at an earlier one. -/
theorem pathIndexResolve_earlier {idx idx' : PathIndex} {n k : Nat} (h : Appended n idx idx') (hk : k < n)
    (path : Path) : pathIndexResolve idx' path k = pathIndexResolve idx path k := by
  obtain ⟨c, hc⟩ := h path
  unfold pathIndexResolve
  have hpast : (List.replicate c n).find? (· ≤ k) = none := by
    rw [List.find?_eq_none]
    intro j hj
    rw [List.eq_of_mem_replicate hj, decide_eq_true_eq]
    omega
  rw [hc, List.reverse_append, List.reverse_replicate, List.find?_append, hpast, Option.none_or]

/-- Beyond the last step the last step resolves. -/
theorem pathIndexResolve_below {idx : PathIndex} {n k : Nat} (h : Below n idx) (hk : n ≤ k + 1) (path : Path) :
    pathIndexResolve idx path n = pathIndexResolve idx path k := by
  unfold pathIndexResolve
  have hall : ∀ j ∈ (idx path).steps.reverse, decide (j ≤ n) = decide (j ≤ k) := by
    intro j hj
    have hlt := h path j (List.mem_reverse.mp hj)
    exact decide_eq_decide.mpr (by omega)
  generalize (idx path).steps.reverse = l at hall ⊢
  induction l with
  | nil => rfl
  | cons j l ih =>
    rw [List.find?_cons, List.find?_cons, hall j List.mem_cons_self,
      ih fun j' hj' => hall j' (List.mem_cons_of_mem _ hj')]

theorem Follows.congr {node : Path → Option Node} {idx idx' : PathIndex} {file file' : StepFile} {k : Nat}
    (h : Follows node idx file k)
    (hidx : ∀ path, pathIndexResolve idx' path k = pathIndexResolve idx path k)
    (hopens : ∀ n path o, file.Opens n path o → file'.Opens n path o) : Follows node idx' file' k := by
  intro path dset hlead
  obtain ⟨r, s, hr, hs, ho⟩ := h path dset hlead
  exact ⟨r, s, (hidx dset).trans hr, (hidx path).trans hs, hopens s path _ ho⟩

/-! ## The invariant -/

/-- What holds after every step that keeps the links in order. -/
structure LinksInOrder (steps : Ledger) (fs : Core) : Prop where
  count : steps.length = fs.physicalStep
  links : LinksRemembered steps fs.links
  below : Below fs.physicalStep fs.pathIndex
  sorted : ∀ path, (fs.pathIndex path).steps.Pairwise (· ≤ ·)
  manifests : ∀ n m, n < fs.physicalStep → fs.file.manifestOf n = some m →
    ∀ path, path ∈ m.indexPaths ↔ n ∈ (fs.pathIndex path).steps
  empty : ∀ n, fs.physicalStep ≤ n → fs.file.ops n = []
  follows : ∀ k < fs.physicalStep, Follows (Ledger.node (steps.take (k + 1))) fs.pathIndex fs.file k

theorem linksInOrder_init (config : Config) : LinksInOrder [] (Core.init config) where
  count := rfl
  links := ⟨List.nodup_nil, fun _ => rfl⟩
  below := fun _ _ h => (by cases h)
  sorted := fun _ => List.Pairwise.nil
  manifests := fun n _ h => absurd h (Nat.not_lt_zero n)
  empty := fun _ _ => rfl
  follows := fun k h => absurd h (Nat.not_lt_zero k)

/-- The tables decide it. -/
theorem LinksInOrder.keep {steps : Ledger} {fs fs' : Core} (h : LinksInOrder steps fs)
    (hnumber : fs'.physicalStep = fs.physicalStep) (hlinks : fs'.links = fs.links)
    (hindex : ∀ path, (fs'.pathIndex path).steps = (fs.pathIndex path).steps)
    (hfile : ∀ n, fs'.file.ops n = fs.file.ops n) : LinksInOrder steps fs' where
  count := h.count.trans hnumber.symm
  links := by
    rw [hlinks]
    exact h.links
  below := by
    intro path k hk
    rw [hindex] at hk
    rw [hnumber]
    exact h.below path k hk
  sorted := by
    intro path
    rw [hindex]
    exact h.sorted path
  manifests := by
    intro n m hn hm path
    rw [hindex]
    refine h.manifests n m (by rw [← hnumber]; exact hn) ?_ path
    unfold StepFile.manifestOf StepFile.manifestOps at hm ⊢
    rw [← hfile]
    exact hm
  empty := by
    intro n hn
    rw [hfile]
    exact h.empty n (by rw [← hnumber]; exact hn)
  follows := by
    intro k hk
    rw [hnumber] at hk
    refine (h.follows k hk).congr (fun path => ?_) fun n path o ho => ?_
    · unfold pathIndexResolve
      rw [hindex]
    · exact ho.fill (h.empty fs.physicalStep (Nat.le_refl _)) fun j _ => hfile j

/-- Before its first step, and from each step to the next. -/
theorem LinksInOrder.current {steps : Ledger} {fs : Core} (h : LinksInOrder steps fs) :
    Follows steps.node fs.pathIndex fs.file fs.physicalStep := by
  cases hn : fs.physicalStep with
  | zero =>
    have hnil : steps = [] := List.length_eq_zero_iff.mp (h.count.trans hn)
    intro path dset hlead
    have hnode := hlead.dataset_at
    rw [hnil] at hnode
    cases hnode
  | succ k =>
    have hfollows := h.follows k (by omega)
    rw [List.take_of_length_le (by rw [h.count, hn])] at hfollows
    have hbelow := h.below
    rw [hn] at hbelow
    intro path dset hlead
    obtain ⟨r, s, hr, hs, ho⟩ := hfollows path dset hlead
    have hsame := pathIndexResolve_below hbelow (Nat.le_refl (k + 1))
    exact ⟨r, s, (hsame dset).trans hr, (hsame path).trans hs, ho⟩

/-! ## A step that is committed -/

section Committed

variable {steps : Ledger} {w : Writer} {env : EndEnv} {args : ReplayArgs} {st st' : Replay}

/-- The links remembered after the step. -/
theorem StepReplayed.remembered (h : StepReplayed steps w env args st st') (hstart : st.core.links = w.core.links) :
    LinksRemembered (steps ++ [w.core.pending]) st'.core.links := by
  have hrule := fun {P : Table Path LinkRec → Prop} hset => links_rule (P := P) env.replay args hset st
  rw [h.ok] at hrule
  have hnodup : st'.core.links.keys.Nodup :=
    hrule (P := fun links => links.keys.Nodup) (fun _ _ _ _ _ _ _ _ hnodup => Table.nodup_keys_set hnodup _ _)
      (by rw [hstart]; exact h.links.1)
  refine ⟨hnodup, fun path => ?_⟩
  by_cases hlinked : ∃ pe ∈ (w.core.folded env).pending, pe.kind = .link ∧ pe.path = path
  · obtain ⟨pe, hpe, hk, rfl⟩ := hlinked
    rw [link_of_node (h.kept.node_linked h.links hpe hk)]
    obtain ⟨i, hi⟩ := List.getElem?_of_mem hpe
    obtain ⟨htarget, hcreated, hnoted⟩ := h.kept.made i pe hi hk
    obtain ⟨e, he, hkind, hpath⟩ := h.entry hi
    obtain ⟨hard, target, hpayload⟩ : ∃ hard target, pe.payload = .link hard target := by
      cases hp : pe.payload with
      | bytes b =>
        rw [hp] at htarget
        exact absurd rfl htarget
      | link hard target => exact ⟨hard, target, rfl⟩
    rw [hpayload] at htarget ⊢
    have hfind := link_noted h.ok he (hkind.trans hk) ((h.payload i pe hi).trans hpayload) htarget hcreated hnoted
      fun j e' he' hk' hpath' => by
        obtain ⟨pe', hpe', hkind', hpathe⟩ := h.pending he'
        exact h.kept.linked_at h.links hpe' hi (hkind'.trans hk') hk (hpathe.trans (hpath'.trans hpath))
    rw [hpath] at hfind
    rw [hfind]
    rfl
  · have hleft : ∀ pe ∈ (w.core.folded env).pending, pe.kind = .link → pe.path ≠ path :=
      fun pe hpe hk hpath => hlinked ⟨pe, hpe, hk, hpath⟩
    have hfind : st'.core.links.find? path = w.core.links.find? path := by
      refine hrule (P := fun links => links.find? path = w.core.links.find? path) ?_ (by rw [hstart])
      intro i e hard target he hk _ links hlinks
      obtain ⟨pe, hpe, hkind, hpath⟩ := h.pending he
      rw [Table.find?_set, if_neg]
      · exact hlinks
      · exact fun heq => hleft pe (List.mem_of_getElem? hpe) (hkind.trans hk) (hpath.trans heq)
    have hnone : w.core.pending.reverse.findSome? (PendingEntry.linkAt path) = none := by
      rw [List.findSome?_eq_none_iff]
      intro pe hpe
      unfold PendingEntry.linkAt
      refine if_neg fun hk => ?_
      obtain ⟨i, hi⟩ := List.getElem?_of_mem (List.mem_reverse.mp hpe)
      exact hleft pe (List.mem_of_getElem? (h.kept.captured h.links hi)) hk.2 hk.1
    rw [hfind, h.links.2, Ledger.link_append, hnone]
    rfl

/-- A committed step keeps the links in order. -/
theorem StepReplayed.inOrder (h : StepReplayed steps w env args st st') (hinv : LinksInOrder steps w.core)
    (hlinks : st.core.links = w.core.links) (hindex : st.core.pathIndex = w.core.pathIndex)
    (hfile : st.core.file = w.core.file) (hnumber : args.manifest.physicalStep = w.core.physicalStep) {fs : Core}
    (hnext : fs.physicalStep = w.core.physicalStep + 1) (hlinks' : fs.links = st'.core.links)
    (hindex' : fs.pathIndex = st'.core.pathIndex) (hfile' : fs.file = st'.core.file) :
    LinksInOrder (steps ++ [w.core.pending]) fs := by
  have happended := appended_replayManifest env.replay args st
  rw [h.ok, Outcome.state_ok, hindex, hnumber] at happended
  have hother : ∀ k, k ≠ w.core.physicalStep → st'.core.file.ops k = w.core.file.ops k := by
    intro k hk
    rw [h.other (by rw [hnumber]; exact hk), hfile]
  have hempty := hinv.empty w.core.physicalStep (Nat.le_refl _)
  refine ⟨?_, ?_, ?_, ?_, ?_, ?_, ?_⟩
  · rw [List.length_append, List.length_singleton, hinv.count, hnext]
  · rw [hlinks']
    exact h.remembered hlinks
  · rw [hnext, hindex']
    refine Below.appended (fun path k hk => ?_) happended (Nat.lt_succ_self _)
    exact Nat.lt_succ_of_lt (hinv.below path k hk)
  · intro path
    rw [hindex']
    obtain ⟨c, hc⟩ := happended path
    rw [hc, List.pairwise_append]
    refine ⟨hinv.sorted path, List.pairwise_replicate.mpr (.inr (Nat.le_refl _)), fun a ha b hb => ?_⟩
    rw [(List.mem_replicate.mp hb).2]
    exact Nat.le_of_lt (hinv.below path a ha)
  · intro n m hn hm path
    rw [hfile', StepFile.manifestOf] at hm
    have hmade := manifestOps_replayManifest env.replay args st n
    rw [h.ok, Outcome.state_ok, Outcome.isOk_ok, hfile, hnumber] at hmade
    obtain ⟨c, hsteps, hc⟩ := steps_replayManifest env.replay args st path
    rw [h.ok, Outcome.state_ok, hindex, hnumber] at hsteps
    rw [h.ok] at hc
    rw [hindex', hsteps, List.mem_append, List.mem_replicate]
    by_cases heq : w.core.physicalStep = n
    · subst heq
      have hnone : w.core.file.manifestOps w.core.physicalStep = [] := by
        unfold StepFile.manifestOps
        rw [hempty]
        rfl
      rw [hnone, List.nil_append, if_pos ⟨rfl, rfl⟩] at hmade
      have hmm : m = args.manifest := by
        rw [hmade] at hm
        unfold ReplayEnv.manifestMade at hm
        split at hm
        · cases hm
        · split at hm
          · cases hm
          · cases hm
            rfl
      rw [hmm, hc rfl, ← List.count_pos_iff]
      constructor
      · exact fun hpos => .inr ⟨by omega, rfl⟩
      · rintro (hmem | ⟨hne, -⟩)
        · exact absurd (hinv.below path _ hmem) (Nat.lt_irrefl _)
        · omega
    · rw [if_neg (fun hand => heq hand.2), List.append_nil] at hmade
      rw [hmade] at hm
      rw [hinv.manifests n m (by omega) hm path]
      exact ⟨.inl, fun hor => hor.resolve_right fun hand => heq hand.2.symm⟩
  · intro n hn
    rw [hnext] at hn
    rw [hfile', hother n (by omega)]
    exact hinv.empty n (by omega)
  · intro k hk
    rw [hindex', hfile']
    by_cases heq : k = w.core.physicalStep
    · subst heq
      rw [List.take_of_length_le (by rw [List.length_append, List.length_singleton, hinv.count])]
      have hfollows := h.follows (by rw [hnumber, hindex, hfile]; exact hinv.current)
      rw [hnumber] at hfollows
      exact hfollows
    · have hlt : k < w.core.physicalStep := by omega
      rw [List.take_append_of_le_length (by rw [hinv.count]; omega)]
      refine (hinv.follows k hlt).congr (pathIndexResolve_earlier happended hlt) fun n path o ho => ?_
      exact ho.fill hempty hother

end Committed

/-! ## `H5Fend_step` without a queue policy -/

theorem endStep_inOrder {steps : Ledger} {w w' : Writer} {env : EndEnv} (h : LinksInOrder steps w.core)
    (hpolicy : w.core.queuePolicy = none) (hkept : LinksKept steps w env) (hend : endStep env w = .ok w') :
    LinksInOrder (steps ++ [w.core.pending]) w'.core := by
  obtain ⟨-, st, happly, hw'⟩ := endStep_ok hend
  obtain ⟨p, b, hfold⟩ := folded_eq w.core env
  have hunset : (w.core.folded env).queuePolicy = none := by
    rw [hfold]
    exact hpolicy
  rw [applyQueuePolicy_unset env hunset] at happly
  have hnumber : st.core.physicalStep = w.core.physicalStep := by
    have hsame := physicalStep_replayStep env.build env.replay ⟨w.core.folded env, [], w.lookups⟩
    rw [happly, Outcome.state_ok] at hsame
    rw [hsame, hfold]
  obtain ⟨m, cache, hbuild, hreplay⟩ := replayStep_eq_ok happly
  have hm : m.physicalStep = w.core.physicalStep := by
    obtain ⟨-, -, hm⟩ := buildManifest_eq hbuild
    rw [(hm m rfl).1, hfold]
  have hreplayed : StepReplayed steps w env
      (Core.replayArgs { w.core.folded env with writeTypeCache := cache } m)
      ⟨{ w.core.folded env with writeTypeCache := cache }, [], w.lookups⟩ st := by
    refine ⟨hkept, h.links, ?_, ?_, hreplay, ?_⟩
    · have hbuilt := congrArg Prod.snd hbuild
      exact keys_of_shapes (shapes_buildManifest hbuilt)
    · intro i pe hpe
      show ((w.core.folded env).pending[i]?.map (·.payload)).getD _ = _
      rw [hpe]
      rfl
    · show (w.core.folded env).file.ops m.physicalStep = []
      rw [hm, hfold]
      exact h.empty _ (Nat.le_refl _)
  refine hreplayed.inOrder h ?_ ?_ ?_ hm (by rw [hw', ← hnumber]) (by rw [hw']; rfl) (by rw [hw']; rfl)
    (by rw [hw']; rfl)
  · show (w.core.folded env).links = _
    rw [hfold]
  · show (w.core.folded env).pathIndex = _
    rw [hfold]
  · show (w.core.folded env).file = _
    rw [hfold]

theorem failedStep_inOrder {steps : Ledger} {w w' : Writer} {env : EndEnv} (h : LinksInOrder steps w.core)
    (hpolicy : w.core.queuePolicy = none) (hin : w.core.stepState = .inStep) (hrestored : LinksRestored w env)
    (hend : endStep env w = .fail w') : LinksInOrder steps w'.core := by
  obtain ⟨p, b, hfold⟩ := folded_eq w.core env
  rcases endStep_fail hend with ⟨hout, -⟩ | ⟨-, st, happly, hw'⟩
  · exact absurd hin hout
  · have hunset : (w.core.folded env).queuePolicy = none := by
      rw [hfold]
      exact hpolicy
    rw [applyQueuePolicy_unset env hunset] at happly
    have hnumber := physicalStep_replayStep env.build env.replay ⟨w.core.folded env, [], w.lookups⟩
    have hworked := workedIn_replayStep (fun k => k = w.core.physicalStep) env.build env.replay
      ⟨w.core.folded env, [], w.lookups⟩ (by rw [hfold])
    have happended := appended_replayStep env.build env.replay ⟨w.core.folded env, [], w.lookups⟩
    rw [happly, Outcome.state_fail] at hnumber happended
    rw [happly, Outcome.state_fail] at hworked
    simp only [hfold] at hnumber hworked happended
    have hlinks : st.core.links = w.core.links := by
      have hheld := hrestored.held
      unfold replayStep at happly
      cases hbuild : buildManifest env.build (w.core.folded env) with
      | mk fs res =>
        obtain ⟨cache, rfl, -⟩ := buildManifest_eq hbuild
        simp only [hbuild] at happly
        cases res with
        | none =>
          cases happly
          show (w.core.folded env).links = _
          rw [hfold]
        | some m =>
          have hsame : (replayManifest env.replay
              (Core.replayArgs { w.core.folded env with writeTypeCache := cache } m)
              ⟨{ w.core.folded env with writeTypeCache := cache }, [], w.lookups⟩).state.core.links =
              (w.core.folded env).links := links_held ?_
          · have hreplay : replayManifest env.replay
                (Core.replayArgs { w.core.folded env with writeTypeCache := cache } m)
                ⟨{ w.core.folded env with writeTypeCache := cache }, [], w.lookups⟩ = .fail st := happly
            rw [hreplay, Outcome.state_fail] at hsame
            rw [hsame]
            show (w.core.folded env).links = _
            rw [hfold]
          · intro hstart
            have hreached := hheld m (by rw [hbuild]) hstart
            show ∀ ie ∈ reached env.replay ((w.core.folded env).replayArgs m) (w.core.folded env).pathIndex
              (w.core.folded env).replayTypeCache (replayOrder m.entries),
              linkHeld env.replay ((w.core.folded env).replayArgs m) (w.core.folded env).links ie
            rw [hfold] at hreached ⊢
            exact hreached
    refine h.keep ?_ ?_ ?_ ?_
    · rw [hw']
      exact hnumber
    · rw [hw']
      exact hlinks
    · intro path
      rw [hw']
      show (pathIndexDropStep st.core.pathIndex st.core.physicalStep path).steps = _
      rw [hnumber]
      exact h.below.dropped happended path
    · intro n
      rw [hw']
      show (StepFile.ops (if env.unlinkFails then st.core.file else st.core.file.unlink st.core.physicalStep) n) = _
      rw [hrestored.removed, hnumber, if_neg (by decide), StepFile.ops_unlink]
      split
      · rename_i heq
        rw [← heq]
        exact (h.empty _ (Nat.le_refl _)).symm
      · rename_i hne
        unfold StepFile.ops
        rw [hworked.1.same n (Ne.symm hne)]

/-! ## Runs -/

theorem inOrder_apply {steps : Ledger} {w : Writer} (h : LinksInOrder steps w.core) {ev : Event}
    (hev : ∀ env, ev ≠ .endStep env) : LinksInOrder steps (w.apply ev).state.core := by
  have hsame := (committed_apply w hev).1
  refine h.keep ?_ ?_ (fun path => ?_) fun n => ?_
  · have := congrArg Core.physicalStep hsame
    exact this
  · have := congrArg Core.links hsame
    exact this
  · have := congrArg (fun fs : Core => (fs.pathIndex path).steps) hsame
    exact this
  · have := congrArg (fun fs : Core => fs.file.ops n) hsame
    exact this

structure RecordedInv (answers : Nat → ReplayEnv) (s : Recorded) : Prop where
  caught : CaughtUp answers s.twin
  links : LinksInOrder s.steps s.twin.immediate.core

/-- Both writers end the step alike. -/
theorem isOk_endStep_caughtUp {answers : Nat → ReplayEnv} {s : Twin} (h : CaughtUp answers s) {env : EndEnv}
    (hafter : CaughtUp answers (s.apply (.endStep env))) :
    (endStep env s.immediate).isOk = (endStep env s.spilling).isOk := by
  have hnumber : s.immediate.core.physicalStep = s.spilling.core.physicalStep := Core.common_physicalStep h.common
  have hnumber' : (endStep env s.immediate).state.core.physicalStep = (endStep env s.spilling).state.core.physicalStep :=
    Core.common_physicalStep hafter.common
  have hcount : ∀ w : Writer, (endStep env w).state.core.physicalStep
      = w.core.physicalStep + if (endStep env w).isOk then 1 else 0 := by
    intro w
    rcases endStep_cases env w with ⟨-, hres⟩ | ⟨w', hres, hended⟩ | ⟨w', hres, habandoned⟩
    · rw [hres]
      rfl
    · rw [hres]
      exact hended.number
    · rw [hres]
      exact habandoned.number
  rw [hcount, hcount, hnumber] at hnumber'
  cases hi : (endStep env s.immediate).isOk with
  | true =>
    cases hs : (endStep env s.spilling).isOk with
    | true => rfl
    | false =>
      rw [hi, hs] at hnumber'
      simp at hnumber'
  | false =>
    cases hs : (endStep env s.spilling).isOk with
    | true =>
      rw [hi, hs] at hnumber'
      simp at hnumber'
    | false => rfl

theorem RecordedInv.apply {answers : Nat → ReplayEnv} {s : Recorded} (h : RecordedInv answers s) (ev : Event)
    (hok : Following answers s ev) : RecordedInv answers (s.apply ev) := by
  by_cases hev : ∃ env, ev = .endStep env
  · obtain ⟨env, rfl⟩ := hev
    have hstate : s.twin.immediate.core.stepState = s.twin.spilling.core.stepState := by
      have := congrArg Core.stepState h.caught.common
      exact this
    have hcaught : CaughtUp answers (s.twin.apply (.endStep env)) :=
      h.caught.apply (.endStep env) fun hin => (hok hin).1
    refine ⟨hcaught, ?_⟩
    have hboth := isOk_endStep_caughtUp h.caught hcaught
    show LinksInOrder (if (endStep env s.twin.spilling).isOk then s.steps ++ [s.twin.spilling.core.pending] else s.steps)
      (endStep env s.twin.immediate).state.core
    by_cases hin : s.twin.spilling.core.stepState = .inStep
    · have hlinks := (hok hin).2
      rw [← hboth] at hlinks ⊢
      cases hres : endStep env s.twin.immediate with
      | ok w' =>
        rw [hres] at hlinks
        rw [Outcome.isOk_ok, if_pos rfl, ← Core.common_pending h.caught.common]
        exact endStep_inOrder h.links h.caught.policy hlinks hres
      | fail w' =>
        rw [hres] at hlinks
        exact failedStep_inOrder h.links h.caught.policy (hstate.trans hin) hlinks hres
    · have hout : endStep env s.twin.immediate = .fail s.twin.immediate := by
        unfold endStep
        exact if_pos (by rw [hstate]; exact hin)
      rw [← hboth, hout]
      exact h.links
  · have hev : ∀ env, ev ≠ .endStep env := fun env heq => hev ⟨env, heq⟩
    have hdeferred : Deferred answers s.twin ev := by
      cases ev with
      | endStep env => exact absurd rfl (hev env)
      | _ => trivial
    refine ⟨h.caught.apply ev hdeferred, ?_⟩
    cases ev with
    | endStep env => exact absurd rfl (hev env)
    | setQueuePolicy policy reserve => exact h.links
    | _ => exact inOrder_apply h.links hev

/-! ## Readers -/

/-- A reader that could build its index found a manifest in every step. -/
theorem manifestOf_readerBuildIndex {file : StepFile} {rd : Reader}
    (h : readerBuildIndex (some file.children) Reader.init = .ok rd) {n : Nat} (hn : n < rd.nStepsTotal) :
    ∃ m, file.manifestOf n = some m := by
  unfold readerBuildIndex at h
  simp only at h
  split at h
  · cases h
  · rw [Outcome.bind_eq_ok_iff] at h
    obtain ⟨rd', hrun, h⟩ := h
    cases h
    have htotal : rd'.nStepsTotal = ((collectSteps file.children).insertionSort (· ≤ ·)).length := by
      have hkeep := Outcome.state_runAll (f := readerIndexOneStep file.children)
        (P := fun r : Reader => r.nStepsTotal = ((collectSteps file.children).insertionSort (· ≤ ·)).length)
        (l := List.range ((collectSteps file.children).insertionSort (· ≤ ·)).length)
        (fun p _ r hr => by
          unfold readerIndexOneStep
          split
          · exact hr
          · exact hr) (s := { Reader.init with
            nStepsTotal := ((collectSteps file.children).insertionSort (· ≤ ·)).length
            stepLogicalIds := List.replicate ((collectSteps file.children).insertionSort (· ≤ ·)).length [] }) rfl
      rw [hrun] at hkeep
      exact hkeep
    obtain ⟨r, hr⟩ := Outcome.isOk_of_runAll hrun (List.mem_range.mpr (by rw [← htotal]; exact hn))
    unfold readerIndexOneStep at hr
    split at hr
    · rename_i m hfind
      rw [find?_children] at hfind
      obtain ⟨ops, hops, hm⟩ := Option.map_eq_some_iff.mp hfind
      refine ⟨m, ?_⟩
      unfold StepFile.manifestOf StepFile.manifestOps StepFile.ops
      rw [hops]
      exact hm
    · cases hr

/-- The reader's index resolves as the writer's. -/
theorem LinksInOrder.reader {steps : Ledger} {fs : Core} (h : LinksInOrder steps fs) {file : StepFile}
    (hfile : ∀ n, fs.file.ops n = file.ops n) {rd : Reader}
    (hbuild : readerBuildIndex (some file.children) Reader.init = .ok rd) {k : Nat} (hk : k < rd.nStepsTotal)
    (hk' : k < fs.physicalStep) (path : Path) :
    pathIndexResolve rd.pathIndex path k = pathIndexResolve fs.pathIndex path k := by
  have hsteps : (rd.pathIndex path).steps = (List.range rd.nStepsTotal).flatMap
      fun p => List.replicate ((stepPaths file.children p).count path) p := pathIndex_readerBuildIndex hbuild path
  have hsorted : (rd.pathIndex path).steps.Pairwise (· ≤ ·) := by
    rw [hsteps]
    exact sorted_scan _ _
  have hset : {j | j ∈ (rd.pathIndex path).steps ∧ j ≤ k} = {j | j ∈ (fs.pathIndex path).steps ∧ j ≤ k} := by
    ext j
    simp only [Set.mem_ofPred_eq]
    refine and_congr_left fun hjk => ?_
    have hj : j < rd.nStepsTotal := by omega
    obtain ⟨m, hm⟩ := manifestOf_readerBuildIndex hbuild hj
    have hm' : fs.file.manifestOf j = some m := by
      unfold StepFile.manifestOf StepFile.manifestOps at hm ⊢
      rw [hfile]
      exact hm
    rw [hsteps, mem_scan, stepPaths_children, hm, ← h.manifests j m (by omega) hm' path, ← Nat.pos_iff_ne_zero,
      List.count_pos_iff]
    exact ⟨fun hand => hand.2, fun hmem => ⟨hj, hmem⟩⟩
  refine Option.ext fun n => ?_
  rw [pathIndexResolve_eq_some_iff hsorted, pathIndexResolve_eq_some_iff (h.sorted path), hset]

/-- A reader positioned at step `k` opens, through every path of a chain of links, the copy of the chain's
dataset that it opens through the dataset's own path. -/
def Recorded.LinksFollow (s : Recorded) : Prop :=
  ∀ dir k rd, s.twin.spilling.core.file.IsDir dir → readerAdvance dir (some k) Reader.init = .ok rd →
    k < s.steps.length → ∀ path dset, LeadsTo (Ledger.node (s.steps.take (k + 1))) path dset →
      ∃ r, pathIndexResolve rd.pathIndex dset k = some r ∧ ∀ o,
        (rd.Opens s.twin.spilling.core.file path o ↔ o = (r, dset))
          ∧ (rd.Opens s.twin.spilling.core.file dset o ↔ o = (r, dset))

/-- Step 0 makes `/d`, a link `/l` to it and a link `/m` to `/l`; step 1 writes `/d` again. -/
def chainRun : List Event :=
  [.beginStep [] 0, createByte 0 ['d'], .linkCreate ['/', 'l'] ['/', 'd'] true,
    .linkCreate ['/', 'm'] ['/', 'l'] true, .closeHandle 0, .endStep .quiet,
    .beginStep [] 1, createByte 1 ['d'], .closeHandle 1, .endStep .quiet]

/-- Without the link to a link. -/
def linkedRun : List Event :=
  [.beginStep [] 0, createByte 0 ['d'], .linkCreate ['/', 'l'] ['/', 'd'] true, .closeHandle 0, .endStep .quiet,
    .beginStep [] 1, createByte 1 ['d'], .closeHandle 1, .endStep .quiet]

/-- No link to a link, and no link re-pointed: what is left to keep. -/
theorem LinksKept.direct {steps : Ledger} {w : Writer} {env : EndEnv}
    (honce : w.core.pending.Pairwise fun a b => a.path ≠ b.path) (hroom : (foldGroupAttrs env.groupAttr w.core).LinkRoom)
    (hmade : ∀ (i : Nat) (pe : PendingEntry), (w.core.folded env).pending[i]? = some pe → pe.kind = .link →
      pe.payload.target ≠ [] ∧ env.replay.fails i .linkCreate = false ∧ env.replay.fails i .linkNote = false)
    (hattrs : ∀ pe ∈ (w.core.folded env).pending, pe.kind ≠ .attr)
    (hlinks : ∀ pe ∈ steps.flatten ++ w.core.pending, pe.kind = .link →
      Ledger.node (steps ++ [w.core.pending]) pe.path = some (.link pe.payload.target)
        ∧ Ledger.node (steps ++ [w.core.pending]) pe.payload.target = some .dataset) : LinksKept steps w env where
  once := honce.imp fun {a b} hne path ha hb => by
    obtain ⟨node, hnode⟩ := Option.ne_none_iff_exists'.mp ha
    obtain ⟨node', hnode'⟩ := Option.ne_none_iff_exists'.mp hb
    exact absurd ((nodeAt_eq_some hnode).1.trans (nodeAt_eq_some hnode').1.symm) hne
  room := hroom
  made := hmade
  free := List.Pairwise.imp_of_mem (R := fun _ _ => True) (fun {a b} ha _ _ hk => absurd hk (hattrs a ha))
    (List.pairwise_of_forall fun _ _ => trivial)
  attrs := fun pe hpe hk => absurd hk (hattrs pe hpe)
  current := by
    intro path target hlink _
    obtain ⟨pe, hpe, hat⟩ := List.exists_of_findSome?_eq_some hlink
    unfold PendingEntry.linkAt at hat
    split at hat
    · rename_i hpath
      exact ⟨_, hpath.1 ▸ (hlinks pe (List.mem_append_left _ (List.mem_reverse.mp hpe)) hpath.2).1⟩
    · cases hat
  chains := by
    intro path target target' dset hpath htarget
    obtain ⟨pe, hpe, hnode⟩ := List.exists_of_findSome?_eq_some hpath
    rw [List.mem_reverse, List.flatten_append, List.flatten_singleton] at hpe
    obtain ⟨-, hk⟩ := nodeAt_eq_some hnode
    rcases hk with ⟨-, hk⟩ | ⟨hk, heq⟩
    · cases hk
    · rw [Node.link.inj heq, (hlinks pe hpe hk).2] at htarget
      cases htarget

end VolStream
