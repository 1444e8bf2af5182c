/-
  A keyed store seen through its history.

  Entries are set under a key, and later cleared or taken out at some time.
  The content of the store is the replay of its history.

  * `Each`: a property of each event of a history and of what came before it;
  * `replay`: what the store holds after a history;
  * `Proper`: each entry taken is the one that the store holds;
  * `Proper.set_between`: an entry taken after an event on its key was set in
    between;
  * `Proper.nodup_taken`: if no key is set twice, then no key is taken twice.
-/
import Mathlib.Tactic

namespace History

section Each
variable {β : Type} {P : List β → β → Prop}

/-- Every event of a history with one more event is the new one or was there before. -/
theorem split_snoc {l pre post : List β} {x y : β} (h : l ++ [x] = pre ++ y :: post) :
    (post = [] ∧ l = pre ∧ x = y) ∨ ∃ post', l = pre ++ y :: post' := by
  rcases post.eq_nil_or_concat' with rfl | ⟨post', last, rfl⟩
  · obtain ⟨hl, hx⟩ := List.append_inj' h rfl
    exact Or.inl ⟨rfl, hl, List.head_eq_of_cons_eq hx⟩
  · rw [← List.cons_append, ← List.append_assoc] at h
    exact Or.inr ⟨post', (List.append_inj' h rfl).1⟩

/-- `P` holds of each event and of the events before it. -/
def Each (P : List β → β → Prop) (l : List β) : Prop :=
  ∀ pre x post, l = pre ++ x :: post → P pre x

theorem each_nil : Each P [] := by
  intro pre x post h
  simp at h

theorem Each.concat {l : List β} (h : Each P l) {x : β} (hx : P l x) : Each P (l ++ [x]) := by
  intro pre y post hl
  rcases split_snoc hl with ⟨-, rfl, rfl⟩ | ⟨post', hl⟩
  · exact hx
  · exact h pre y post' hl

end Each

variable {κ α τ : Type}

/-- What can happen to the entry of a key. -/
inductive Event (κ α τ : Type) where
  | set (k : κ) (a : α)
  | clear (k : κ)
  | take (k : κ) (a : α) (t : τ)
  deriving DecidableEq

namespace Event

/-- The key that an event is about. -/
def key : Event κ α τ → κ
  | set k _ | clear k | take k _ _ => k

/-- What the store holds under the key afterwards. -/
def value : Event κ α τ → Option α
  | set _ a => some a
  | clear _ | take _ _ _ => none

/-- The entry taken out of the store. -/
def taken : Event κ α τ → Option (κ × α)
  | take k a _ => some (k, a)
  | set _ _ | clear _ => none

/-- The entry put into the store. -/
def entry : Event κ α τ → Option (κ × α)
  | set k a => some (k, a)
  | clear _ | take _ _ _ => none

variable [DecidableEq κ]

/-- What an event does to the store. -/
def apply (M : κ → Option α) (e : Event κ α τ) : κ → Option α := Function.update M e.key e.value

end Event

/-- The entries taken during a history, in order. -/
def taken (h : List (Event κ α τ)) : List (κ × α) := h.filterMap Event.taken

/-- The entries set during a history, in order. -/
def entries (h : List (Event κ α τ)) : List (κ × α) := h.filterMap Event.entry

theorem mem_entries {h : List (Event κ α τ)} {k : κ} {a : α} :
    (k, a) ∈ entries h ↔ .set k a ∈ h := by
  unfold entries
  rw [List.mem_filterMap]
  constructor
  · rintro ⟨e, he, hv⟩
    cases e with
    | set => cases hv; exact he
    | clear => cases hv
    | take => cases hv
  · exact fun he => ⟨_, he, rfl⟩

theorem mem_taken {h : List (Event κ α τ)} {k : κ} {a : α} :
    (k, a) ∈ taken h ↔ ∃ t, .take k a t ∈ h := by
  unfold taken
  rw [List.mem_filterMap]
  constructor
  · rintro ⟨e, he, hv⟩
    cases e with
    | set => cases hv
    | clear => cases hv
    | take k a t => cases hv; exact ⟨t, he⟩
  · exact fun ⟨t, he⟩ => ⟨_, he, rfl⟩

theorem entries_append (h l : List (Event κ α τ)) : entries (h ++ l) = entries h ++ entries l :=
  List.filterMap_append

theorem taken_append (h l : List (Event κ α τ)) : taken (h ++ l) = taken h ++ taken l :=
  List.filterMap_append

@[simp] theorem taken_map_take (l : List (κ × α)) (t : τ) :
    taken (l.map fun x => .take x.1 x.2 t) = l := by
  induction l with
  | nil => rfl
  | cons x l ih => simpa [taken, Event.taken] using ih

@[simp] theorem entries_map_take (l : List (κ × α)) (t : τ) :
    entries (l.map fun x => .take x.1 x.2 t) = [] := by
  rw [entries, List.filterMap_map]
  exact List.filterMap_eq_nil_iff.2 fun _ _ => rfl

section Replay
variable [DecidableEq κ]

/-- The entry of a key after some events: either they have set or taken it, or it is the
    one there was before. -/
theorem foldl_apply_cases (h : List (Event κ α τ)) (M M' : κ → Option α) (k : κ) :
    h.foldl Event.apply M k = h.foldl Event.apply M' k ∨
      h.foldl Event.apply M k = M k ∧ h.foldl Event.apply M' k = M' k := by
  induction h using List.reverseRecOn with
  | nil => exact Or.inr ⟨rfl, rfl⟩
  | append_singleton h e ih =>
    simp only [List.foldl_append, List.foldl_cons, List.foldl_nil, Event.apply,
      Function.update_apply]
    split_ifs
    · exact Or.inl rfl
    · exact ih

/-- The content of the store after a history. -/
def replay (h : List (Event κ α τ)) : κ → Option α := h.foldl Event.apply fun _ => none

theorem replay_concat (h : List (Event κ α τ)) (e : Event κ α τ) :
    replay (h ++ [e]) = e.apply (replay h) := by
  simp [replay, List.foldl_append]

/-- An entry of the store was set, and nothing has happened to its key since. -/
theorem exists_set {h : List (Event κ α τ)} {k : κ} {a : α} (hr : replay h k = some a) :
    ∃ pre post, h = pre ++ .set k a :: post ∧ ∀ e ∈ post, e.key ≠ k := by
  induction h using List.reverseRecOn with
  | nil => cases hr
  | append_singleton h e ih =>
    rw [replay_concat, Event.apply] at hr
    by_cases he : k = e.key
    · -- the last event on the key is the last event
      rw [he, Function.update_self] at hr
      cases e with
      | set => cases hr; cases he; exact ⟨h, [], rfl, by simp⟩
      | clear => cases hr
      | take => cases hr
    · rw [Function.update_of_ne he] at hr
      obtain ⟨pre, post, rfl, hpost⟩ := ih hr
      refine ⟨pre, post ++ [e], by simp, fun e' he' => ?_⟩
      rcases List.mem_append.1 he' with he' | he'
      · exact hpost e' he'
      · rw [List.mem_singleton.1 he']; exact Ne.symm he

/-- Each entry taken is the one that the store holds at that moment. -/
def Proper (h : List (Event κ α τ)) : Prop :=
  ∀ pre k a t post, h = pre ++ .take k a t :: post → replay pre k = some a

theorem proper_nil : Proper ([] : List (Event κ α τ)) := by
  intro pre k a t post h
  simp at h

theorem Proper.concat {h : List (Event κ α τ)} (hp : Proper h) {e : Event κ α τ}
    (he : ∀ k a, e.taken = some (k, a) → replay h k = some a) : Proper (h ++ [e]) := by
  intro pre k a t post heq
  rcases split_snoc heq with ⟨-, rfl, rfl⟩ | ⟨post', heq⟩
  · exact he k a rfl
  · exact hp pre k a t post' heq

/-- Entries with different keys can be taken out one after the other. -/
theorem Proper.append_take {h : List (Event κ α τ)} (hp : Proper h) {l : List (κ × α)}
    (hl : (l.map Prod.fst).Nodup) (hm : ∀ x ∈ l, replay h x.1 = some x.2) (t : τ) :
    Proper (h ++ l.map fun x => .take x.1 x.2 t) := by
  induction l generalizing h with
  | nil => simpa using hp
  | cons x l ih =>
    obtain ⟨hx, hl⟩ := List.nodup_cons.1 hl
    have hc : Proper (h ++ [.take x.1 x.2 t]) := by
      refine hp.concat fun k a he => ?_
      cases he
      exact hm x List.mem_cons_self
    have := ih hc hl fun y hy => ?_
    · simpa using this
    · have hne : y.1 ≠ x.1 := fun he => hx (he ▸ List.mem_map_of_mem hy)
      rw [replay_concat, Event.apply, Event.key, Function.update_of_ne hne]
      exact hm y (List.mem_cons_of_mem _ hy)

theorem replay_append_take (h : List (Event κ α τ)) (l : List (κ × α)) (t : τ) (k : κ) :
    replay (h ++ l.map fun x => .take x.1 x.2 t) k =
      if k ∈ l.map Prod.fst then none else replay h k := by
  induction l generalizing h with
  | nil => simp
  | cons x l ih =>
    have hcons : h ++ ((x :: l).map fun x => .take x.1 x.2 t) =
        (h ++ [.take x.1 x.2 t]) ++ l.map fun x => .take x.1 x.2 t := by simp
    rw [hcons, ih, replay_concat, Event.apply, Event.key, Event.value]
    by_cases hk : k = x.1
    · simp [hk]
    · rw [Function.update_of_ne hk]
      simp only [List.map_cons, List.mem_cons, hk, false_or]

variable {h : List (Event κ α τ)}

/-- An entry taken after another event on its key was set in between, unless
    that event is the one that set it. -/
theorem Proper.set_between (hp : Proper h) {pre mid post : List (Event κ α τ)} {e : Event κ α τ}
    {k : κ} {a : α} {t : τ} (heq : h = pre ++ e :: (mid ++ .take k a t :: post)) (hk : e.key = k)
    (hne : e ≠ .set k a) : .set k a ∈ mid := by
  have hr := hp (pre ++ e :: mid) k a t post (by simp [heq])
  obtain ⟨pre', post', hsplit, hpost⟩ := exists_set hr
  rcases List.append_eq_append_iff.1 hsplit with ⟨l, rfl, hl⟩ | ⟨l, rfl, hl⟩
  · -- the event comes after the beginning of `e :: mid`
    rcases List.cons_eq_append_iff.1 hl with ⟨rfl, hl⟩ | ⟨l', rfl, rfl⟩
    · cases hl; exact absurd rfl hne
    · simp
  · -- `e` comes after the event
    rcases List.cons_eq_append_iff.1 hl with ⟨rfl, hl⟩ | ⟨l', rfl, rfl⟩
    · cases hl; exact absurd rfl hne
    · exact absurd hk (hpost e (by simp))

theorem Proper.set_before (hp : Proper h) {pre post : List (Event κ α τ)} {k : κ} {a : α} {t : τ}
    (heq : h = pre ++ .take k a t :: post) : .set k a ∈ pre := by
  obtain ⟨pre', post', rfl, -⟩ := exists_set (hp pre k a t post heq)
  simp

theorem Proper.of_append {l : List (Event κ α τ)} (hp : Proper (h ++ l)) : Proper h := by
  intro pre k a t post heq
  exact hp pre k a t (post ++ l) (by simp [heq])

/-- A key taken twice was set twice. -/
theorem Proper.not_nodup_entries {pre mid : List (Event κ α τ)} {k : κ} {a a' : α} {t t' : τ}
    (hp : Proper (pre ++ .take k a t :: (mid ++ [.take k a' t']))) :
    ¬ ((entries (pre ++ .take k a t :: mid)).map Prod.fst).Nodup := by
  intro hs
  have h₁ : (k, a) ∈ entries pre := mem_entries.2 (hp.set_before rfl)
  have h₂ : (k, a') ∈ entries mid :=
    mem_entries.2 (hp.set_between rfl rfl (by simp))
  simp only [entries, List.filterMap_append, List.map_append] at hs h₁ h₂
  have hdis := (List.nodup_append.1 hs).2.2
  exact hdis k (List.mem_map_of_mem h₁) k (List.mem_map_of_mem h₂) rfl

/-- **Taken once**: if no key is set twice, then no key is taken twice. -/
theorem Proper.nodup_taken (hp : Proper h) (hs : ((entries h).map Prod.fst).Nodup) :
    ((taken h).map Prod.fst).Nodup := by
  induction h using List.reverseRecOn with
  | nil => simp [taken]
  | append_singleton h e ih =>
    rw [entries_append, List.map_append] at hs
    replace hs := hs.of_append_left
    have ih := ih hp.of_append hs
    rw [taken_append, List.map_append]
    refine List.nodup_append.2 ⟨ih, ?_, ?_⟩
    · cases e with
      | set => exact List.nodup_nil
      | clear => exact List.nodup_nil
      | take => exact List.nodup_singleton _
    · rintro k hk _ he rfl
      obtain ⟨⟨k', a'⟩, he', hk'⟩ := List.mem_map.1 he
      obtain ⟨⟨k'', a⟩, hk'', rfl⟩ := List.mem_map.1 hk
      obtain rfl : k' = k'' := hk'
      obtain ⟨t', he'⟩ := mem_taken.1 he'
      obtain ⟨t, hk⟩ := mem_taken.1 hk''
      obtain rfl := List.mem_singleton.1 he'
      obtain ⟨pre, mid, rfl⟩ := List.append_of_mem hk
      rw [List.append_assoc, List.cons_append] at hp
      exact hp.not_nodup_entries hs

end Replay

end History
