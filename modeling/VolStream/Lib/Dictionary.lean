import Mathlib.Data.List.Basic
import Mathlib.Logic.Function.Basic

/-!
# Dictionary coding over two caches

A sender and a receiver keep a cache of the value last sent under each key. The sender omits a
value its cache already holds; the receiver looks an omitted value up in its own. The code is
right when every lookup returns what was omitted.

A message stream `ms` *agrees* with a receiver cache `r` when decoding it from `r` resolves every
omission. Encoding against a cache agrees with that cache (`agrees_encode`). What can separate
the two caches is delivery that is late, repeated or partial; the lemmas below say how agreement
behaves under each: on other keys (`Agrees.congr`), in another order (`after_comm`), and when a
stream is delivered again after a prefix of it had been (`Agrees.retry`).
-/

namespace Dictionary

variable {κ ν : Type}

/-- A message under a key: the value itself, or its omission. What was omitted is carried for
the statements only. -/
inductive Msg (κ ν : Type) where
  | sent (k : κ) (v : ν)
  | omitted (k : κ) (v : ν)
deriving DecidableEq, Repr

def Msg.key : Msg κ ν → κ
  | .sent k _ => k
  | .omitted k _ => k

/-- The keys a stream sends values under. -/
def sentKeys : List (Msg κ ν) → List κ
  | [] => []
  | .sent k _ :: ms => k :: sentKeys ms
  | .omitted _ _ :: ms => sentKeys ms

/-- All keys of a stream. -/
def keys (ms : List (Msg κ ν)) : List κ := ms.map Msg.key

theorem sentKeys_append (l l' : List (Msg κ ν)) : sentKeys (l ++ l') = sentKeys l ++ sentKeys l' := by
  induction l with
  | nil => rfl
  | cons m l ih => cases m <;> simp [sentKeys, ih]

theorem mem_keys_of_mem_sentKeys {k : κ} {ms : List (Msg κ ν)} (h : k ∈ sentKeys ms) :
    k ∈ keys ms := by
  induction ms with
  | nil => cases h
  | cons m ms ih =>
    cases m with
    | sent a v =>
      rcases List.mem_cons.mp h with rfl | h
      · exact List.mem_cons_self
      · exact List.mem_cons_of_mem _ (ih h)
    | omitted a v => exact List.mem_cons_of_mem _ (ih h)

variable [DecidableEq κ]

-- the cache after one message
def Msg.record (r : κ → Option ν) : Msg κ ν → κ → Option ν
  | .sent k v => Function.update r k (some v)
  | .omitted _ _ => r

/-- The receiver's cache after a stream. -/
def after (r : κ → Option ν) : List (Msg κ ν) → κ → Option ν
  | [] => r
  | m :: ms => after (m.record r) ms

/-- Decoding the stream from `r` resolves every omission to what was omitted. -/
def Agrees (r : κ → Option ν) : List (Msg κ ν) → Prop
  | [] => True
  | .sent k v :: ms => Agrees (Function.update r k (some v)) ms
  | .omitted k v :: ms => r k = some v ∧ Agrees r ms

/-- Encode a list of values against the sender's cache. -/
def encode [DecidableEq ν] (w : κ → Option ν) : List (κ × ν) → List (Msg κ ν)
  | [] => []
  | (k, v) :: kvs =>
      if w k = some v then .omitted k v :: encode w kvs
      else .sent k v :: encode (Function.update w k (some v)) kvs

/-! ## Composition -/

theorem after_append (r : κ → Option ν) (l l' : List (Msg κ ν)) :
    after r (l ++ l') = after (after r l) l' := by
  induction l generalizing r with
  | nil => rfl
  | cons m l ih => exact ih _

theorem agrees_append (r : κ → Option ν) (l l' : List (Msg κ ν)) :
    Agrees r (l ++ l') ↔ Agrees r l ∧ Agrees (after r l) l' := by
  induction l generalizing r with
  | nil => simp [Agrees, after]
  | cons m l ih =>
    cases m with
    | sent k v => exact ih _
    | omitted k v =>
      simp only [List.cons_append, Agrees, after, Msg.record, ih]
      exact and_assoc.symm

/-- A stream changes the cache only under the keys it sends. -/
theorem after_of_not_mem {k : κ} {ms : List (Msg κ ν)} (h : k ∉ sentKeys ms) (r : κ → Option ν) :
    after r ms k = r k := by
  induction ms generalizing r with
  | nil => rfl
  | cons m ms ih =>
    cases m with
    | sent a v =>
      rw [sentKeys, List.mem_cons, not_or] at h
      rw [after, ih h.2, Msg.record, Function.update_of_ne h.1]
    | omitted a v => exact ih h r

/-- Under a key it sends, a stream leaves the same value whatever was there before. -/
theorem after_of_mem {k : κ} {ms : List (Msg κ ν)} (h : k ∈ sentKeys ms) (r r' : κ → Option ν) :
    after r ms k = after r' ms k := by
  induction ms generalizing r r' with
  | nil => cases h
  | cons m ms ih =>
    cases m with
    | sent a v =>
      rw [after, after]
      by_cases hk : k ∈ sentKeys ms
      · exact ih hk _ _
      · rcases List.mem_cons.mp h with rfl | h
        · rw [after_of_not_mem hk, after_of_not_mem hk, Msg.record, Msg.record,
            Function.update_self, Function.update_self]
        · exact absurd h hk
    | omitted a v => exact ih h r r'

/-- A stream that sends nothing leaves the cache. -/
theorem after_of_sentKeys_nil {ms : List (Msg κ ν)} (h : sentKeys ms = []) (r : κ → Option ν) :
    after r ms = r :=
  funext fun k => after_of_not_mem (by rw [h]; exact List.not_mem_nil) r

/-! ## Encoding -/

/-- What was just encoded agrees with the cache it was encoded against. -/
theorem agrees_encode [DecidableEq ν] (w : κ → Option ν) (kvs : List (κ × ν)) : Agrees w (encode w kvs) := by
  induction kvs generalizing w with
  | nil => trivial
  | cons kv kvs ih =>
    obtain ⟨k, v⟩ := kv
    rw [encode]
    split
    · rename_i hk
      exact ⟨hk, ih w⟩
    · exact ih _

/-- Encoding what the cache holds sends nothing. -/
theorem after_encode_of_held [DecidableEq ν] {w : κ → Option ν} {kvs : List (κ × ν)}
    (h : ∀ kv ∈ kvs, w kv.1 = some kv.2) : after w (encode w kvs) = w := by
  induction kvs with
  | nil => rfl
  | cons kv kvs ih =>
    rw [encode, if_pos (h kv List.mem_cons_self)]
    exact ih (fun kv' hkv' => h kv' (List.mem_cons_of_mem _ hkv'))

/-! ## Delivery that is late, repeated or partial -/

/-- The stream omits a value under `k` before it sends one: it relies on the cache for `k`. -/
def ReliesOn (ms : List (Msg κ ν)) (k : κ) : Prop :=
  ∃ pre v post, ms = pre ++ .omitted k v :: post ∧ k ∉ sentKeys pre

omit [DecidableEq κ] in
theorem ReliesOn.mem_keys {ms : List (Msg κ ν)} {k : κ} (h : ReliesOn ms k) : k ∈ keys ms := by
  obtain ⟨pre, v, post, rfl, _⟩ := h
  simp [keys, Msg.key]

/-- Agreement looks at the cache only under the keys the stream relies on. -/
theorem Agrees.congr {r r' : κ → Option ν} {ms : List (Msg κ ν)} (h : Agrees r ms)
    (hkeys : ∀ k, ReliesOn ms k → r k = r' k) : Agrees r' ms := by
  induction ms generalizing r r' with
  | nil => trivial
  | cons m ms ih =>
    cases m with
    | sent a v =>
      refine ih h (fun k hk => ?_)
      by_cases hka : k = a
      · subst hka
        simp
      · rw [Function.update_of_ne hka, Function.update_of_ne hka]
        obtain ⟨pre, w, post, rfl, hpre⟩ := hk
        exact hkeys k ⟨.sent a v :: pre, w, post, rfl, by simp [sentKeys, hka, hpre]⟩
    | omitted a v =>
      have ha : r a = r' a := hkeys a ⟨[], v, ms, rfl, List.not_mem_nil⟩
      refine ⟨ha ▸ h.1, ih h.2 (fun k hk => ?_)⟩
      obtain ⟨pre, w, post, rfl, hpre⟩ := hk
      exact hkeys k ⟨.omitted a v :: pre, w, post, rfl, hpre⟩

/-- Streams that send under different keys can be delivered in either order. -/
theorem after_comm {l l' : List (Msg κ ν)} (h : ∀ k ∈ sentKeys l, k ∉ sentKeys l')
    (r : κ → Option ν) : after (after r l) l' = after (after r l') l := by
  funext k
  by_cases hl : k ∈ sentKeys l
  · rw [after_of_not_mem (h k hl), after_of_mem hl]
  · rw [after_of_not_mem hl (after r l')]
    by_cases hl' : k ∈ sentKeys l'
    · exact after_of_mem hl' _ _
    · rw [after_of_not_mem hl', after_of_not_mem hl, after_of_not_mem hl']

/-- No key is omitted first and sent later: delivering a prefix does not disturb a second
delivery of the whole. -/
def Retryable (ms : List (Msg κ ν)) : Prop :=
  ∀ k, ReliesOn ms k → k ∉ sentKeys ms

/-- Delivering a prefix and then the whole stream leaves what the whole stream leaves. -/
theorem after_retry (r : κ → Option ν) (pre post : List (Msg κ ν)) :
    after (after r pre) (pre ++ post) = after r (pre ++ post) := by
  funext k
  by_cases hk : k ∈ sentKeys (pre ++ post)
  · exact after_of_mem hk _ _
  · have hpre : k ∉ sentKeys pre := fun h => hk (by rw [sentKeys_append]; exact List.mem_append_left _ h)
    rw [after_of_not_mem hk, after_of_not_mem hk, after_of_not_mem hpre]

/-- A retryable stream agrees again after a prefix of it had been delivered. -/
theorem Agrees.retry {r : κ → Option ν} {pre post : List (Msg κ ν)} (h : Agrees r (pre ++ post))
    (hretry : Retryable (pre ++ post)) : Agrees (after r pre) (pre ++ post) := by
  refine h.congr (fun k hk => ?_)
  have hnot := hretry k hk
  rw [sentKeys_append, List.mem_append, not_or] at hnot
  exact (after_of_not_mem hnot.1 r).symm

end Dictionary
