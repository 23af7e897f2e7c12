import Mathlib.Tactic
import Provision.Session

/-!
# Entries of tables

How looking up a name interacts with inserting and changing entries, and the lists without repeats
that a session keeps with `addOnce`.
-/

namespace Provision

open List

namespace Table

variable {α : Type _} {t : Table α} {n m : String} {e : α} {f : α → α}

theorem find?_nil : find? ([] : Table α) n = none := rfl

theorem find?_cons (x : String × α) (t : Table α) :
    find? (x :: t) n = if n = x.1 then some x.2 else find? t n := by
  obtain ⟨k, e⟩ := x
  rw [find?, lookup_cons]
  by_cases h : n = k
  · simp [h]
  · simp [h, find?, beq_eq_false_iff_ne.mpr h]

/-- An inserted entry is found under its name, and every other name as before. -/
@[simp] theorem find?_insert : find? (t.insert n e) m = if m = n then some e else find? t m := by
  induction t with
  | nil => rw [insert, find?_cons, find?_nil]
  | cons x t ih =>
    obtain ⟨k, d⟩ := x
    rw [insert]
    by_cases hk : k = n
    · subst hk
      rw [if_pos rfl, find?_cons, find?_cons]
      by_cases hm : m = k <;> simp [hm]
    · rw [if_neg hk, find?_cons, ih, find?_cons]
      by_cases hm : m = k
      · simp [hm, hk]
      · simp [hm]

theorem find?_map {β : Type _} (g : α → β) :
    find? (t.map fun x => (x.1, g x.2)) n = (find? t n).map g := by
  induction t with
  | nil => rfl
  | cons x t ih =>
    rw [map_cons, find?_cons, find?_cons, ih]
    split <;> rfl

/-- Changing an entry changes what is found under its name alone. -/
@[simp] theorem find?_modify :
    find? (t.modify n f) m = if m = n then (find? t m).map f else find? t m := by
  induction t with
  | nil => simp [modify, find?_nil]
  | cons x t ih =>
    obtain ⟨k, d⟩ := x
    have hcons : modify ((k, d) :: t) n f =
        (if k = n then (k, f d) else (k, d)) :: modify t n f := by
      simp [modify]
    rw [hcons]
    by_cases hk : k = n
    · subst hk
      rw [if_pos rfl, find?_cons, find?_cons, ih]
      by_cases hm : m = k <;> simp [hm]
    · rw [if_neg hk, find?_cons, find?_cons, ih]
      by_cases hm : m = k
      · simp [hm, hk]
      · simp [hm]

@[simp] theorem names_modify : (t.modify n f).names = t.names := by
  unfold names modify
  rw [map_map]
  refine map_congr_left fun x _ => ?_
  by_cases hx : x.1 = n <;> simp [hx]

/-- A new name comes last, and a known one keeps its place. -/
theorem names_insert : (t.insert n e).names = if n ∈ t.names then t.names else t.names ++ [n] := by
  induction t with
  | nil => simp [insert, names]
  | cons x t ih =>
    obtain ⟨k, d⟩ := x
    rw [insert]
    by_cases hk : k = n
    · subst hk
      simp [names]
    · have hn : n ∈ names ((k, d) :: t) ↔ n ∈ names t := by simp [names, Ne.symm hk]
      have hstep : names ((k, d) :: insert t n e) = k :: names (insert t n e) := rfl
      rw [if_neg hk, hstep, ih]
      by_cases hmem : n ∈ names t
      · rw [if_pos hmem, if_pos (hn.mpr hmem)]
        rfl
      · rw [if_neg hmem, if_neg (mt hn.mp hmem)]
        rfl

theorem nodup_names_insert (h : t.names.Nodup) : (t.insert n e).names.Nodup := by
  rw [names_insert]
  split
  · exact h
  · next hn => exact h.append (nodup_singleton n) (by simpa using hn)

theorem mem_insert {x : String × α} (h : x ∈ t.insert n e) : x = (n, e) ∨ x ∈ t := by
  induction t with
  | nil => exact Or.inl (mem_singleton.mp h)
  | cons y t ih =>
    rw [insert] at h
    split at h
    · next heq =>
      rcases mem_cons.mp h with rfl | hx
      · exact Or.inl (congrArg (·, e) heq)
      · exact Or.inr (mem_cons_of_mem y hx)
    · rcases mem_cons.mp h with rfl | hx
      · exact Or.inr mem_cons_self
      · exact (ih hx).imp_right (mem_cons_of_mem y)

theorem mem_of_find? (h : find? t n = some e) : (n, e) ∈ t := by
  induction t with
  | nil => cases h
  | cons x t ih =>
    rw [find?_cons] at h
    split at h
    · next hn =>
      cases h
      exact hn ▸ mem_cons_self
    · exact mem_cons_of_mem x (ih h)

theorem mem_names_iff : n ∈ t.names ↔ (t.find? n).isSome := by
  induction t with
  | nil => simp [names, find?_nil]
  | cons x t ih =>
    have hcons : names (x :: t) = x.1 :: names t := rfl
    rw [hcons, mem_cons, ih, find?_cons]
    by_cases hn : n = x.1
    · simp [hn]
    · simp [hn]

theorem find?_eq_none_iff : find? t n = none ↔ n ∉ t.names := by
  rw [mem_names_iff, Option.not_isSome_iff_eq_none]

/-- Where names do not repeat, the entries are those that lookups find. -/
theorem mem_iff_find? (h : t.names.Nodup) : (n, e) ∈ t ↔ find? t n = some e := by
  induction t generalizing e with
  | nil => simp [find?_nil]
  | cons x t ih =>
    obtain ⟨k, d⟩ := x
    obtain ⟨hk, ht⟩ := nodup_cons.mp h
    rw [find?_cons, mem_cons, ih ht]
    by_cases hn : n = k
    · subst hn
      have hnone : ∀ e, find? t n ≠ some e := fun e he =>
        hk (mem_map.mpr ⟨(n, e), (ih ht).mpr he, rfl⟩)
      simp [hnone, eq_comm]
    · simp [hn]

theorem insert_of_find?_eq_none (h : find? t n = none) : t.insert n e = t ++ [(n, e)] := by
  induction t with
  | nil => rfl
  | cons x t ih =>
    rw [find?_cons] at h
    split at h
    · cases h
    · next hne => rw [insert, if_neg (Ne.symm hne), ih h, cons_append]

/-- Entries with distinct names are a table as they stand. -/
theorem ofList_of_nodup {entries : List (String × α)} (h : (entries.map (·.1)).Nodup) :
    ofList entries = entries := by
  induction entries using reverseRecOn with
  | nil => rfl
  | append_singleton entries e ih =>
    rw [map_append, nodup_append] at h
    obtain ⟨hnd, -, hdisj⟩ := h
    have hnew : find? entries e.1 = none := by
      refine Option.eq_none_iff_forall_ne_some.mpr fun a ha => ?_
      exact hdisj _ (mem_map_of_mem (mem_of_find? ha)) _ (by simp) rfl
    have hlast : ofList (entries ++ [e]) = (ofList entries).insert e.1 e.2 := by
      rw [ofList, foldl_append]
      rfl
    rw [hlast, ih hnd, insert_of_find?_eq_none hnew]

theorem map_modify {α β : Type} (t : Table α) (name : String) {f : α → α} {g : α → β}
    {h : β → β} (hf : ∀ a, g (f a) = h (g a)) :
    (t.modify name f).map (fun e => (e.1, g e.2)) =
      Table.modify (t.map fun e => (e.1, g e.2)) name h := by
  rw [Table.modify, Table.modify, map_map, map_map]
  refine map_congr_left fun e _ => ?_
  by_cases he : e.1 = name
  · simp [he, hf]
  · simp [he]

theorem map_modify_of_eq {α β : Type} (t : Table α) (name : String) {f : α → α} {g : α → β}
    (hf : ∀ a, g (f a) = g a) :
    (t.modify name f).map (fun e => (e.1, g e.2)) = t.map fun e => (e.1, g e.2) := by
  rw [map_modify t name (h := id) hf, modify]
  simp

theorem map_insert {α β : Type} (t : Table α) (name : String) (a : α) (g : α → β) :
    (t.insert name a).map (fun e => (e.1, g e.2)) =
      Table.insert (t.map fun e => (e.1, g e.2)) name (g a) := by
  induction t with
  | nil => rfl
  | cons e t ih =>
    rw [insert, map_cons, insert]
    by_cases he : e.1 = name
    · simp [he]
    · simp [he, ih]

end Table

@[simp] theorem mem_addOnce {xs : List String} {x y : String} :
    y ∈ addOnce xs x ↔ y ∈ xs ∨ y = x := by
  unfold addOnce
  split
  · next h => exact ⟨Or.inl, fun hy => hy.elim id fun e => e ▸ contains_iff_mem.mp h⟩
  · simp

@[simp] theorem mem_foldl_addOnce {more xs : List String} {y : String} :
    y ∈ more.foldl addOnce xs ↔ y ∈ xs ∨ y ∈ more := by
  induction more generalizing xs with
  | nil => simp
  | cons x more ih => rw [foldl_cons, ih, mem_addOnce, mem_cons, or_assoc]

end Provision
