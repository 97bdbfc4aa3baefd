import Mathlib.Data.List.Forall2
import Mathlib.Data.List.Nodup

/-!
# Lists that are related element by element

What two lists have in common when each element of one is related to the element of the
other at its place, and what is found in them by a name.
-/

namespace Related

section

variable {α β γ δ : Type}

/-- Each element of the first list is related to an element of the second. -/
theorem exists_of_mem {R : α → β → Prop} {as : List α} {bs : List β} (h : List.Forall₂ R as bs)
    {a : α} (ha : a ∈ as) : ∃ b ∈ bs, R a b := by
  induction h with
  | nil => cases ha
  | cons hab _ ih =>
    rcases List.mem_cons.mp ha with rfl | ha
    · exact ⟨_, List.mem_cons_self .., hab⟩
    · obtain ⟨b, hb, hr⟩ := ih ha
      exact ⟨b, List.mem_cons_of_mem _ hb, hr⟩

/-- A list has one list related to it where an element has one element related to it. -/
theorem unique {R S : α → β → Prop} (h : ∀ a b c, R a b → S a c → b = c) {as : List α}
    {bs cs : List β} (hb : List.Forall₂ R as bs) (hc : List.Forall₂ S as cs) : bs = cs := by
  induction hb generalizing cs with
  | nil =>
    cases hc
    rfl
  | cons hfirst _ ih =>
    cases hc with
    | cons hfirst' hrest => rw [h _ _ _ hfirst hfirst', ih hrest]

/-- What each element of a list has in the middle makes a list in the middle. -/
theorem exists_middle {P : α → γ → Prop} {g : β → δ} {k : γ → δ} {as : List α} {bs : List β}
    (h : List.Forall₂ (fun a b => ∃ c, P a c ∧ g b = k c) as bs) :
    ∃ cs, List.Forall₂ P as cs ∧ bs.map g = cs.map k := by
  induction h with
  | nil => exact ⟨[], .nil, rfl⟩
  | cons hfirst _ ih =>
    obtain ⟨c, hc, heq⟩ := hfirst
    obtain ⟨cs, hcs, hmap⟩ := ih
    exact ⟨c :: cs, .cons hc hcs, by rw [List.map_cons, List.map_cons, heq, hmap]⟩

/-- What is found in two related lists is related, if the tests agree on related elements. -/
theorem find_related {R : α → β → Prop} {p : α → Bool} {q : β → Bool} {as : List α} {bs : List β}
    (h : List.Forall₂ (fun a b => p a = q b ∧ R a b) as bs) :
    Option.Rel R (as.find? p) (bs.find? q) := by
  induction h with
  | nil => exact .none
  | @cons a b _ _ hfirst _ ih =>
    rw [List.find?_cons, List.find?_cons, hfirst.1]
    cases q b with
    | true => exact .some hfirst.2
    | false => exact ih

/-! ## Finding by a label -/

variable [DecidableEq β] {label : α → β}

variable {l : List α}

theorem find_label_iff (hnodup : (l.map label).Nodup) {b : β} {a : α} :
    l.find? (fun other => decide (label other = b)) = some a ↔ a ∈ l ∧ label a = b := by
  induction l with
  | nil => simp
  | cons first l ih =>
    obtain ⟨hfirst, hnodup⟩ := List.nodup_cons.mp hnodup
    rw [List.find?_cons]
    by_cases hlabel : label first = b
    · rw [decide_eq_true hlabel]
      constructor
      · rintro ⟨⟩
        exact ⟨List.mem_cons_self, hlabel⟩
      · rintro ⟨ha, rfl⟩
        rcases List.mem_cons.mp ha with rfl | ha
        · rfl
        · exact absurd (hlabel ▸ List.mem_map_of_mem ha) hfirst
    · rw [decide_eq_false hlabel]
      refine (ih hnodup).trans (and_congr_left fun ha => ?_)
      refine ⟨List.mem_cons_of_mem _, fun hmem => (List.mem_cons.mp hmem).resolve_left ?_⟩
      rintro rfl
      exact hlabel ha

theorem find_label_none_iff {b : β} :
    l.find? (fun other => decide (label other = b)) = none ↔ b ∉ l.map label := by
  rw [List.find?_eq_none, List.mem_map]
  simp only [decide_eq_true_eq, not_exists, not_and]

/-- Where labels are distinct, the first and the last of a label are the same. -/
theorem find_label_reverse (hnodup : (l.map label).Nodup) (b : β) :
    l.reverse.find? (fun other => decide (label other = b)) =
      l.find? fun other => decide (label other = b) := by
  have hreverse : (l.reverse.map label).Nodup := by
    rw [List.map_reverse]
    exact List.nodup_reverse.mpr hnodup
  refine Option.ext fun a => ?_
  rw [find_label_iff hnodup, find_label_iff hreverse, List.mem_reverse]

end

section

variable {κ ρ σ : Type} {R : ρ → σ → Prop}

variable {entries : List (κ × ρ)} {others : List (κ × σ)}

variable (h : List.Forall₂ (fun entry other => other.1 = entry.1 ∧ R entry.2 other.2) entries others)

include h in
theorem map_keys :
    entries.map Prod.fst = others.map Prod.fst := by
  induction h with
  | nil => rfl
  | cons hfirst _ ih => rw [List.map_cons, List.map_cons, hfirst.1, ih]

variable [DecidableEq κ]

include h in
/-- What is found by a key in two related lists is related. -/
theorem find_key (key : κ) :
    Option.Rel R ((entries.find? fun entry => decide (entry.1 = key)).map Prod.snd)
      ((others.find? fun other => decide (other.1 = key)).map Prod.snd) := by
  have hfound := @find_related _ _ (fun entry other => R entry.2 other.2)
    (fun entry : κ × ρ => decide (entry.1 = key)) (fun other : κ × σ => decide (other.1 = key))
    _ _ (h.imp fun entry other hboth => ⟨by rw [hboth.1], hboth.2⟩)
  generalize entries.find? (fun entry => decide (entry.1 = key)) = entry at hfound ⊢
  generalize others.find? (fun other => decide (other.1 = key)) = other at hfound ⊢
  cases hfound with
  | some hrelated => exact .some hrelated
  | none => exact .none

end

end Related
