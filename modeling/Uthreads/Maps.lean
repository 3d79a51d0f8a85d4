import Mathlib

namespace Uthreads.Maps

variable {β : Type} (m : Std.ExtTreeMap Nat β)

theorem mem_iff {k : Nat} : k ∈ m ↔ ∃ v, m[k]? = some v := by
  rw [Std.ExtTreeMap.mem_iff_isSome_getElem?, Option.isSome_iff_exists]

theorem getElem?_modify (k j : Nat) (f : β → β) :
    (m.modify k f)[j]? = if k = j then m[j]?.map f else m[j]? := by
  rw [Std.ExtTreeMap.getElem?_modify]
  by_cases h : k = j
  · simp [h]
  · simp [h]

theorem modify_modify (k : Nat) (f g : β → β) :
    (m.modify k f).modify k g = m.modify k (fun v => g (f v)) := by
  apply Std.ExtTreeMap.ext_getElem?
  intro j
  by_cases h : k = j
  · simp [h, Function.comp_def]
  · simp [getElem?_modify, h]

theorem keys_subperm_range {n : Nat} (h : ∀ k ∈ m, k < n) : m.keys.Subperm (List.range n) := by
  have hnd : m.keys.Nodup := Std.ExtTreeMap.distinct_keys.imp (by simp)
  apply hnd.subperm
  intro k hk
  rw [List.mem_range]
  exact h k (Std.ExtTreeMap.mem_keys.mp hk)

theorem size_le_of_lt {n : Nat} (h : ∀ k ∈ m, k < n) : m.size ≤ n := by
  have hle := (keys_subperm_range m h).length_le
  rwa [Std.ExtTreeMap.length_keys, List.length_range] at hle

theorem size_eq_iff {n : Nat} (h : ∀ k ∈ m, k < n) : m.size = n ↔ ∀ k < n, k ∈ m := by
  have hlen : m.size = n ↔ (List.range n).length ≤ m.keys.length := by
    rw [Std.ExtTreeMap.length_keys, List.length_range]
    exact ⟨fun he => he.ge, fun hle => (size_le_of_lt m h).antisymm hle⟩
  rw [hlen]
  constructor
  · intro hle k hk
    have hperm := (keys_subperm_range m h).perm_of_length_le hle
    exact Std.ExtTreeMap.mem_keys.mp (hperm.mem_iff.mpr (List.mem_range.mpr hk))
  · intro hall
    have hsub' : List.range n ⊆ m.keys := fun k hk =>
      Std.ExtTreeMap.mem_keys.mpr (hall k (List.mem_range.mp hk))
    exact (List.nodup_range.subperm hsub').length_le

theorem keys_filter_nodup (p : Nat × β → Bool) : ((m.toList.filter p).map Prod.fst).Nodup := by
  have h : m.toList.Pairwise (fun a b => a.1 ≠ b.1) :=
    Std.ExtTreeMap.distinct_keys_toList.imp (by simp)
  exact List.pairwise_map.mpr (h.filter p)

theorem keys_filter_sorted (p : Nat × β → Bool) :
    ((m.toList.filter p).map Prod.fst).Pairwise (fun a b => a < b) := by
  have h : m.toList.Pairwise (fun a b => a.1 < b.1) :=
    Std.ExtTreeMap.ordered_keys_toList.imp (by simp [Nat.compare_eq_lt])
  exact List.pairwise_map.mpr (h.filter p)

theorem mem_keys_filter (p : Nat × β → Bool) (k : Nat) :
    k ∈ (m.toList.filter p).map Prod.fst ↔ ∃ v, m[k]? = some v ∧ p (k, v) = true := by
  simp [Std.ExtTreeMap.mem_toList_iff_getElem?_eq_some]

/-- The entries of a map come in the order of their keys, so they are determined
by their lookups. -/
theorem filter_toList_congr {m m' : Std.ExtTreeMap Nat β} {p p' : Nat × β → Bool}
    (h : ∀ k v, m[k]? = some v ∧ p (k, v) = true ↔ m'[k]? = some v ∧ p' (k, v) = true) :
    m.toList.filter p = m'.toList.filter p' := by
  have hsorted : ∀ (m : Std.ExtTreeMap Nat β) (p : Nat × β → Bool),
      (m.toList.filter p).Pairwise (fun a b => a.1 < b.1) := fun m p =>
    (Std.ExtTreeMap.ordered_keys_toList.imp (by simp [Nat.compare_eq_lt])).filter p
  have hmem : ∀ e, e ∈ m.toList.filter p ↔ e ∈ m'.toList.filter p' := by
    rintro ⟨k, v⟩
    simpa [Std.ExtTreeMap.mem_toList_iff_getElem?_eq_some] using h k v
  have hnd : ∀ l : List (Nat × β), l.Pairwise (fun a b => a.1 < b.1) → l.Nodup := by
    intro l hl
    apply hl.imp
    rintro a b hab rfl
    exact Nat.lt_irrefl _ hab
  have hperm := (List.perm_ext_iff_of_nodup (hnd _ (hsorted m p)) (hnd _ (hsorted m' p'))).mpr hmem
  refine hperm.eq_of_pairwise ?_ (hsorted m p) (hsorted m' p')
  intro a b _ _ hab hba
  exact absurd hab (Nat.lt_asymm hba)

theorem getElem?_foldl_erase (ks : List Nat) (k : Nat) :
    (ks.foldl (fun m j => m.erase j) m)[k]? = if k ∈ ks then none else m[k]? := by
  induction ks generalizing m with
  | nil => simp
  | cons j ks ih =>
      rw [List.foldl_cons, ih, Std.ExtTreeMap.getElem?_erase]
      by_cases h : j = k
      · simp [h]
      · simp [h, Ne.symm h]

theorem getElem?_filter (p : Nat → β → Bool) (k : Nat) :
    (m.filter p)[k]? = m[k]?.filter (p k) := by
  rw [Std.ExtTreeMap.getElem?_filter]
  simp

theorem foldl_erase_filter (p : β → Bool) :
    ((m.toList.filter (fun e => p e.2)).map Prod.fst).foldl (fun m j => m.erase j) m =
      m.filter (fun _ v => !p v) := by
  apply Std.ExtTreeMap.ext_getElem?
  intro k
  simp only [getElem?_foldl_erase, getElem?_filter, mem_keys_filter]
  cases hk : m[k]? with
  | none => simp
  | some v => by_cases hp : p v = true <;> simp [Option.filter, hp]

theorem size_erase_lt {k : Nat} (h : k ∈ m) : (m.erase k).size < m.size := by
  have hpos : m.size ≠ 0 := by
    intro h0
    rw [Std.ExtTreeMap.eq_empty_iff_size_eq_zero.mpr h0] at h
    exact Std.ExtTreeMap.not_mem_empty h
  rw [Std.ExtTreeMap.size_erase, if_pos (Std.ExtTreeMap.contains_iff_mem.mpr h)]
  omega

theorem erase_of_not_mem {k : Nat} (h : k ∉ m) : m.erase k = m := by
  apply Std.ExtTreeMap.ext_getElem?
  intro j
  rw [Std.ExtTreeMap.getElem?_erase]
  by_cases he : k = j
  · subst he
    simp [Std.ExtTreeMap.getElem?_eq_none h]
  · simp [he]

theorem set_erase_of_not_mem {m : Std.ExtTreeSet Nat} {k : Nat} (h : k ∉ m) : m.erase k = m := by
  apply Std.ExtTreeSet.ext_mem
  intro j
  rw [Std.ExtTreeSet.mem_erase, ne_eq, compare_eq_iff_eq]
  constructor
  · exact fun hj => hj.2
  · exact fun hj => ⟨(ne_of_mem_of_not_mem hj h).symm, hj⟩

theorem filter_ne_self {l : List Nat} {k : Nat} (h : k ∉ l) : l.filter (fun j => j ≠ k) = l :=
  List.filter_eq_self.mpr (fun j hj => by simpa using ne_of_mem_of_not_mem hj h)

theorem filter_ne_eq_erase {l : List Nat} (h : l.Nodup) (k : Nat) :
    l.filter (fun j => j ≠ k) = l.erase k := by
  rw [h.erase_eq_filter]
  exact List.filter_congr fun j _ => by by_cases hj : j = k <;> simp [hj]

theorem exists_split_of_count_le_one {l : List Nat} {k i : Nat} (h : l.count k ≤ 1)
    (hi : l[i]? = some k) :
    ∃ pre post, l = pre ++ k :: post ∧ pre.length = i ∧ k ∉ pre ∧ k ∉ post := by
  obtain ⟨hlt, hget⟩ := List.getElem?_eq_some_iff.mp hi
  have hsplit : l.take i ++ k :: l.drop (i + 1) = l := by
    rw [← hget, ← List.drop_eq_getElem_cons hlt, List.take_append_drop]
  have hcount : (l.take i ++ k :: l.drop (i + 1)).count k ≤ 1 := by rwa [hsplit]
  rw [List.count_append, List.count_cons_self] at hcount
  refine ⟨l.take i, l.drop (i + 1), hsplit.symm, List.length_take_of_le (Nat.le_of_lt hlt), ?_, ?_⟩
  · exact List.count_eq_zero.mp (by omega)
  · exact List.count_eq_zero.mp (by omega)

theorem eraseIdx_split {pre post : List Nat} {k : Nat} (hpre : k ∉ pre) (hpost : k ∉ post) :
    (pre ++ k :: post).eraseIdx pre.length = (pre ++ k :: post).filter (fun j => j ≠ k) := by
  rw [List.eraseIdx_append_of_length_le (Nat.le_refl _), Nat.sub_self, List.eraseIdx_cons_zero,
    List.filter_append, List.filter_cons_of_neg (by simp), filter_ne_self hpre,
    filter_ne_self hpost]

theorem getElem?_eraseIdx_split_ne {pre post : List Nat} {k i j : Nat} (hpost : k ∉ post)
    (hi : i ≤ pre.length) (hj : pre.length < j) :
    ((pre ++ k :: post).eraseIdx i)[j]? ≠ some k := by
  intro hget
  rw [List.getElem?_eraseIdx, if_neg (by omega), List.getElem?_append_right (by omega)] at hget
  obtain ⟨n, hn⟩ : ∃ n, j + 1 - pre.length = n + 1 := ⟨j - pre.length, by omega⟩
  rw [hn, List.getElem?_cons_succ] at hget
  exact hpost (List.mem_of_getElem? hget)

end Uthreads.Maps
