import Provision.Proofs.Ty.AnyFree
import Provision.Proofs.Ty.Equality

/-!
# Judgements do not see order

Three judgements are made about types: whether one can be assigned to another, whether a value
conforms to one, and whether the restriction of a decorator admits one. Each of them goes through
fields and variants in their order, but none of them tells equal normal types apart
(`Ty.judgements_of_same`).

For the type that is assigned this is known (`Ty.assignable_of_same_of_assignable`). On the other
side, what fits a variant fits every equal one (`Ty.Replaceable`), by induction on the elements and
fields of the variant. A value conforms where a type that stands for it can be assigned, so the same
induction serves for values.
-/

namespace Provision

namespace Ty

variable {a a' b b' c s t u : Ty}

/-! ### Assignment to equal types -/

/-- What fits the type fits every type that is equal to it. -/
structure Replaceable (t : Ty) : Prop where
  fits : ∀ {s u}, Fits s t → same t u = true → Fits s u

theorem assignable_of_replaceable (h : ∀ t ∈ b.leaves, t.Replaceable)
    (hab : assignable a b = true) (hbc : same b c = true) : assignable a c = true := by
  refine assignable_iff_leaves.mpr fun s hs => ?_
  rcases assignable_iff_leaves.mp hab s hs with hany | ⟨t, ht, hst⟩
  · exact Or.inl hany
  · obtain ⟨u, hu, htu⟩ := exists_same_leaf hbc ht
    exact Or.inr ⟨u, hu, (h t ht).fits hst htu⟩

/-- A type is replaceable if its parts are. -/
theorem replaceable_of_parts
    (harray : ∀ {e}, t = .array e → ∀ v ∈ e.leaves, v.Replaceable)
    (hobject : ∀ {gs}, t = .object gs → ∀ g ∈ gs, ∀ v ∈ g.2.leaves, v.Replaceable) :
    t.Replaceable := by
  refine ⟨fun {s u} hst htu => ?_⟩
  cases hst with
  | any =>
    obtain rfl : u = .any := eq_any_of_any_same htu
    exact .any s
  | same hsame => exact .same (same_trans s hsame htu)
  | array helem =>
    cases same_iff_matches.mp htu with
    | array helem' => exact .array (assignable_of_replaceable (harray rfl) helem helem')
  | openObject fs =>
    cases same_iff_matches.mp htu with
    | object hlen _ =>
      -- only the open type has no fields
      rw [List.eq_nil_of_length_eq_zero hlen.symm]
      exact .openObject fs
  | object hlen hflds =>
    cases same_iff_matches.mp htu with
    | object hlen' hflds' =>
      refine .object (hlen.trans hlen') (assignableFields_iff.mpr fun f hf => ?_)
      obtain ⟨g, hg, hfg⟩ := assignableFields_iff.mp hflds f hf
      have hmem := Table.mem_of_find? hg
      obtain ⟨w, hw, hgw⟩ := sameFields_iff.mp hflds' _ hmem
      exact ⟨w, hw, assignable_of_replaceable (hobject rfl _ hmem) hfg hgw⟩
  | resource =>
    cases same_iff_matches.mp htu with
    | schema => exact .resource _ _ _ _ _
  | component =>
    cases same_iff_matches.mp htu with
    | component => exact .component _ _ _ _ _ _ _ _ _

theorem Replaceable.leaves (h : t.Replaceable) (ht : t.union? = none) :
    ∀ v ∈ t.leaves, v.Replaceable := by
  rw [leaves_of_union? ht]
  exact List.forall_mem_singleton.mpr h

theorem Normal.replaceable (h : b.Normal) : ∀ t ∈ b.leaves, t.Replaceable := by
  induction h with
  | union _ _ _ _ ih =>
    intro t ht
    obtain ⟨v, hv, ht⟩ := mem_leaves_union.mp ht
    exact ih v hv t ht
  | array _ ih =>
    refine Replaceable.leaves (replaceable_of_parts ?_ nofun) rfl
    rintro e ⟨⟩
    exact ih
  | object _ _ ih =>
    refine Replaceable.leaves (replaceable_of_parts nofun ?_) rfl
    rintro gs ⟨⟩
    exact ih
  | _ => exact Replaceable.leaves (replaceable_of_parts nofun nofun) rfl

theorem Normal.assignable_of_same (hb : b.Normal) (hab : assignable a b = true)
    (hbc : same b c = true) : assignable a c = true :=
  assignable_of_replaceable hb.replaceable hab hbc

theorem assignable_congr (ha : a.Normal) (ha' : a'.Normal) (hb : b.Normal) (hb' : b'.Normal)
    (haa' : same a a' = true) (hbb' : same b b' = true) : assignable a b = assignable a' b' := by
  have himp : ∀ {x x' y y' : Ty}, y.Normal → same x' x = true → same y y' = true →
      assignable x y = true → assignable x' y' = true := by
    intro x x' y y' hy hxx' hyy' hxy
    have hleft : assignable x' y = true := assignable_of_same_of_assignable x' hxx' hxy
    exact hy.assignable_of_same hleft hyy'
  rw [Bool.eq_iff_iff]
  exact ⟨himp hb (ha.same_symm ha' haa') hbb', himp hb' haa' (hb.same_symm hb' hbb')⟩

end Ty

/-! ### Values and restrictions -/

theorem Value.conforms_congr {a a' : Ty} (ha : a.Normal) (ha' : a'.Normal)
    (h : a.same a' = true) (v : Value) : v.conforms a = v.conforms a' := by
  obtain ⟨type, hstands⟩ := Ty.exists_stands v
  have himp : ∀ {x x' : Ty}, x.Normal → x.same x' = true → v.conforms x = true →
      v.conforms x' = true := by
    intro x x' hx hxx' hv
    rw [← hstands.assignable_iff (Or.inl rfl)] at hv ⊢
    exact hx.assignable_of_same hv hxx'
  rw [Bool.eq_iff_iff]
  exact ⟨himp ha h, himp ha' (ha.same_symm ha' h)⟩

theorem TypeClass.admits_of_same {c : TypeClass} {t u : Ty} (hsame : t.same u = true)
    (h : c.admits u = true) : c.admits t = true := by
  cases c with
  | string | number | boolean =>
    simp only [admits] at h ⊢
    exact Ty.same_trans t hsame h
  | object =>
    cases Ty.same_iff_matches.mp hsame with
    | object => rfl
    | _ => cases h
  | array =>
    cases Ty.same_iff_matches.mp hsame with
    | array => rfl
    | _ => cases h
  | arrayOf kind =>
    cases Ty.same_iff_matches.mp hsame with
    | array helem =>
      simp only [admits] at h ⊢
      exact Ty.same_trans _ helem h
    | _ => cases h

theorem Restriction.admits_congr {a a' : Ty} (ha : a.Normal) (ha' : a'.Normal)
    (h : a.same a' = true) (r : Restriction) : r.admits a = r.admits a' := by
  have himp : ∀ {x x' : Ty}, x'.same x = true → r.admits x = true → r.admits x' = true := by
    intro x x' hsame hx
    cases r with
    | unrestricted => rfl
    | oneOf classes =>
      simp only [admits, List.all_eq_true, List.any_eq_true] at hx ⊢
      intro u hu
      -- the variant has an equal one that some class admits
      obtain ⟨t, ht, hut⟩ := Ty.exists_same_leaf hsame hu
      obtain ⟨c, hc, hadmits⟩ := hx t ht
      exact ⟨c, hc, c.admits_of_same hut hadmits⟩
  rw [Bool.eq_iff_iff]
  exact ⟨himp (ha.same_symm ha' h), himp h⟩

namespace Ty

/-- **Order does not matter.** Equal normal types can be assigned alike, on either side; the same
values conform to them, and the same restrictions admit them. -/
theorem judgements_of_same {a a' b b' : Ty} (ha : a.Normal) (ha' : a'.Normal) (hb : b.Normal)
    (hb' : b'.Normal) (haa' : same a a' = true) (hbb' : same b b' = true) :
    assignable a b = assignable a' b' ∧
      (∀ v : Value, v.conforms a = v.conforms a') ∧
      ∀ r : Restriction, r.admits a = r.admits a' :=
  ⟨assignable_congr ha ha' hb hb' haa' hbb', fun v => v.conforms_congr ha ha' haa',
    fun r => r.admits_congr ha ha' haa'⟩

/-- A host with ports, some of which may be missing, or several hosts. -/
private def hosts : Ty :=
  .union [.object [("name", .string), ("ports", .array (.union [.number, .null]))],
    .array (.object [("name", .string), ("zone", .schema "Zone" [("id", .number)] [])])]

/-- The same with every table and every union in the opposite order, and with less known about the
schema. -/
private def hostsReversed : Ty :=
  .union [.array (.object [("zone", .schema "Zone" [] []), ("name", .string)]),
    .object [("ports", .array (.union [.null, .number])), ("name", .string)]]

/-- Either type can be assigned to either, a host conforms to both, and a restriction to objects and
arrays admits both. -/
theorem judgements_of_same_hosts :
    let host : Value := .object [("ports", .array [.null]), ("name", .string "web")]
    let restriction : Restriction := .oneOf [.object, .array]
    hosts.Normal ∧ hostsReversed.Normal ∧ same hosts hostsReversed = true ∧
      assignable hosts hostsReversed = true ∧ assignable hostsReversed hosts = true ∧
      host.conforms hosts = true ∧ host.conforms hostsReversed = true ∧
      restriction.admits hosts = true ∧ restriction.admits hostsReversed = true := by
  intro host restriction
  have hhosts : hosts.Normal := by decide +kernel
  have hrev : hostsReversed.Normal := by decide +kernel
  have hsame : same hosts hostsReversed = true := by decide +kernel
  have hsame' : same hostsReversed hosts = true := by decide +kernel
  obtain ⟨hasg, hconforms, hadmits⟩ :=
    judgements_of_same hhosts hrev hrev hhosts hsame hsame'
  have hassigned : assignable hosts hostsReversed = true := by decide +kernel
  have hhost : host.conforms hosts = true := by decide +kernel
  have hrestriction : restriction.admits hosts = true := by decide +kernel
  exact ⟨hhosts, hrev, hsame, hassigned, hasg ▸ hassigned, hhost,
    hconforms host ▸ hhost, hrestriction, hadmits restriction ▸ hrestriction⟩

end Ty

end Provision
