import Mathlib.Data.List.Nodup

/-!
# Lists with keys

The entries of a directory and those of a table are lists of pairs, and `List.lookup` takes the
first pair of a key. Where no key is there twice, it finds every pair (`lookup_eq_some_iff_mem`), in
whatever order the pairs are (`lookup_eq_of_perm`). Setting the value of a key (`setKey`) keeps the
keys apart.
-/

namespace SuiteScope

variable {κ α : Type*} [DecidableEq κ] {l l' : List (κ × α)} {key : κ} {a : α}

/-- The first pair is looked at first. -/
theorem lookup_cons (k key : κ) (a : α) (l : List (κ × α)) :
    ((key, a) :: l).lookup k = if k = key then some a else l.lookup k := by
  rw [List.lookup_cons]
  by_cases h : k = key
  · simp [h]
  · rw [if_neg h, beq_eq_false_iff_ne.mpr h]

/-- What is found for a key stands in the list, with that key. -/
theorem mem_of_lookup_eq_some (h : l.lookup key = some a) : (key, a) ∈ l := by
  obtain ⟨before, after, rfl, -⟩ := List.lookup_eq_some_iff.mp h
  exact List.mem_append_right _ List.mem_cons_self

/-- Where no key is there twice, every pair is found by its key. -/
theorem lookup_eq_some_iff_mem (h : (l.map Prod.fst).Nodup) :
    l.lookup key = some a ↔ (key, a) ∈ l := by
  refine ⟨mem_of_lookup_eq_some, fun hmem => ?_⟩
  obtain ⟨before, after, rfl⟩ := List.append_of_mem hmem
  refine List.lookup_eq_some_iff.mpr ⟨before, after, rfl, fun pair hpair => ?_⟩
  rw [List.map_append, List.map_cons, List.nodup_append] at h
  have hne := h.2.2 pair.1 (List.mem_map_of_mem hpair) key List.mem_cons_self
  simpa using Ne.symm hne

/-- The order of the pairs does not matter where no key is there twice. -/
theorem lookup_eq_of_perm (h : (l.map Prod.fst).Nodup) (hperm : l.Perm l') :
    l.lookup key = l'.lookup key := by
  have h' := (hperm.map Prod.fst).nodup_iff.mp h
  refine Option.ext fun a => ?_
  rw [lookup_eq_some_iff_mem h, lookup_eq_some_iff_mem h', hperm.mem_iff]

/-- Nothing is found exactly for what is no key of the list. -/
theorem lookup_eq_none_iff : l.lookup key = none ↔ key ∉ l.map Prod.fst := by
  rw [List.lookup_eq_none_iff, List.mem_map]
  refine ⟨fun h ⟨pair, hpair, heq⟩ => ?_, fun h pair hpair => ?_⟩
  · have := h pair hpair
    rw [heq] at this
    simp at this
  · rw [bne_iff_ne]
    rintro rfl
    exact h ⟨pair, hpair, rfl⟩

/-! ## Setting the value of a key -/

/-- The list with the value of a key replaced, or added at the end. -/
def setKey (key : κ) (a : α) : List (κ × α) → List (κ × α)
  | [] => [(key, a)]
  | (k, old) :: rest => if k = key then (k, a) :: rest else (k, old) :: setKey key a rest

/-- The value that is set is found for its key, and for every other key what was there before. -/
theorem lookup_setKey (key k : κ) (a : α) (l : List (κ × α)) :
    (setKey key a l).lookup k = if k = key then some a else l.lookup k := by
  induction l with
  | nil => exact lookup_cons k key a []
  | cons pair l ih =>
    obtain ⟨k', old⟩ := pair
    rw [setKey]
    split
    next hk' =>
      rw [lookup_cons, lookup_cons, hk']
      split
      · rfl
      · rfl
    next hk' =>
      rw [lookup_cons, lookup_cons, ih]
      by_cases hk : k = k'
      · rw [if_pos hk, if_pos hk, if_neg (hk ▸ hk')]
      · rw [if_neg hk, if_neg hk]

/-- Setting a key brings in the new pair only. -/
theorem mem_of_mem_setKey {pair : κ × α} (h : pair ∈ setKey key a l) :
    pair = (key, a) ∨ pair ∈ l := by
  induction l with
  | nil => exact .inl (List.mem_singleton.mp h)
  | cons p l ih =>
    obtain ⟨k, old⟩ := p
    rw [setKey] at h
    split at h
    next hk =>
      rcases List.mem_cons.mp h with rfl | h
      · exact .inl (by rw [hk])
      · exact .inr (List.mem_cons_of_mem _ h)
    next =>
      rcases List.mem_cons.mp h with rfl | h
      · exact .inr List.mem_cons_self
      · exact (ih h).imp_right (List.mem_cons_of_mem _)

/-- A key that is not there comes to the end. -/
theorem setKey_of_not_mem (h : key ∉ l.map Prod.fst) (a : α) :
    setKey key a l = l ++ [(key, a)] := by
  induction l with
  | nil => rfl
  | cons pair l ih =>
    obtain ⟨hne, hl⟩ := not_or.mp (List.mem_cons.not.mp h)
    rw [setKey, if_neg (Ne.symm hne), ih hl, List.cons_append]

/-- To set a key to its value changes nothing. -/
theorem setKey_of_lookup (h : l.lookup key = some a) : setKey key a l = l := by
  induction l with
  | nil => cases h
  | cons pair l ih =>
    obtain ⟨k, old⟩ := pair
    rw [lookup_cons] at h
    rw [setKey]
    split at h
    next hk =>
      cases h
      rw [if_pos hk.symm]
    next hk => rw [if_neg (Ne.symm hk), ih h]

/-- A key that is there keeps its place among the keys. -/
theorem keys_setKey_of_mem (h : key ∈ l.map Prod.fst) (a : α) :
    (setKey key a l).map Prod.fst = l.map Prod.fst := by
  induction l with
  | nil => cases h
  | cons pair l ih =>
    obtain ⟨k, old⟩ := pair
    rw [setKey]
    split
    next => rfl
    next hk =>
      have hl := (List.mem_cons.mp h).resolve_left (Ne.symm hk)
      rw [List.map_cons, ih hl, List.map_cons]

/-- No key comes to be there twice. -/
theorem nodup_setKey (h : (l.map Prod.fst).Nodup) (key : κ) (a : α) :
    ((setKey key a l).map Prod.fst).Nodup := by
  by_cases hkey : key ∈ l.map Prod.fst
  · rw [keys_setKey_of_mem hkey]
    exact h
  · rw [setKey_of_not_mem hkey, List.map_append]
    refine List.nodup_append.mpr ⟨h, List.nodup_singleton _, fun k hk k' hk' heq => hkey ?_⟩
    obtain rfl := List.mem_singleton.mp hk'
    exact heq ▸ hk

end SuiteScope
