import Provision.ImportRef
import Provision.Proofs.Pattern

/-!
# Kinds of import references

The kinds of import references exclude each other, except that ids are names as well
(`ImportRef.classify?_of_order`). So the order in which they are tried does not matter as long as
ids come before names.

Ids and names have no colon and no slash, but all other references have one
(`ImportRef.accepts_marked`). These are told apart by how they begin: no two kinds have marks of
which one begins with the other.
-/

namespace Provision.ImportRef

open List

variable {kind kind' : ImportRef} {s : String}

/-- The pattern of a kind between its start and its end. -/
def body? (kind : ImportRef) : Option Pattern := do (← Pattern.parse? {} kind.source).body?

/-- What the references of a kind begin with, and a character that no name has; names and ids have
neither. -/
def mark? : ImportRef → Option (List Char × Char)
  | .arn => some ("arn:".toList, ':')
  | .s3Url => some ("s3:".toList, ':')
  | .url => some ("http".toList, ':')
  | .tagClause => some ("tag:".toList, ':')
  | .kmsAlias => some ("alias/".toList, '/')
  | .logGroup => some ("/".toList, '/')
  | .ec2Id | .name => none

def nameStart : CharSet := ⟨[(48, 57), (65, 90), (97, 122)]⟩

def nameChars : CharSet := ⟨[(45, 46), (48, 57), (65, 90), (95, 95), (97, 122)]⟩

def namePattern : Pattern :=
  .seq (.set nameStart) (.seq (.rep (.set nameChars) 0 none true) (.assert .textEnd))

theorem eq_ec2Id_of_mark? (hnm : kind ≠ .name) (h : kind.mark? = none) : kind = .ec2Id := by
  cases kind <;> simp_all [mark?]

theorem mem_all (kind : ImportRef) : kind ∈ all := by
  cases kind <;> decide

theorem not_isPrefix_mark? (hne : kind ≠ kind') {m m' : List Char × Char}
    (h : kind.mark? = some m) (h' : kind'.mark? = some m') : ¬ m.1 <+: m'.1 := by
  cases kind <;> cases h <;> cases kind' <;> cases h' <;> first | decide | exact absurd rfl hne

/-- What is to be seen in the pattern of a kind: its mark, or for names and ids the characters. -/
def shows (kind : ImportRef) (q : Pattern) : Bool :=
  match kind.mark? with
  | some (mark, c) => q.opens mark.isPrefixOf && q.requires c
  | none =>
    if kind = .name then q = namePattern
    else q.opens (·.head?.any nameStart.mem) && q.within nameChars.mem

theorem shows_body? : ∀ kind : ImportRef, kind.body?.any kind.shows = true := by
  intro kind
  cases kind <;> decide +kernel

theorem exists_body (kind : ImportRef) : ∃ q, kind.shows q = true ∧
    ∀ s : String, kind.accepts s = true ↔ s.toList ∈ q.language := by
  obtain ⟨q, hbody, hshows⟩ := (Option.any_eq_true ..).mp (shows_body? kind)
  obtain ⟨p, hprs, hp⟩ := Option.bind_eq_some_iff.mp hbody
  refine ⟨q, hshows, fun s => ?_⟩
  rw [← Pattern.isMatch_iff hp, accepts, hprs]

theorem accepts_marked {mark : List Char} {c : Char} (hmark : kind.mark? = some (mark, c))
    (h : kind.accepts s = true) : mark <+: s.toList ∧ c ∈ s.toList := by
  obtain ⟨q, hshows, hq⟩ := exists_body kind
  rw [shows, hmark] at hshows
  obtain ⟨hopens, hrequires⟩ := Bool.and_eq_true_iff.mp hshows
  obtain ⟨u, hu, hus⟩ := Pattern.exists_of_opens hopens ((hq s).mp h)
  exact ⟨(List.isPrefixOf_iff_prefix.mp hu).trans hus,
    Pattern.mem_of_requires hrequires ((hq s).mp h)⟩

theorem accepts_name_iff : name.accepts s = true ↔ ∃ c rest, s.toList = c :: rest ∧
    nameStart.mem c = true ∧ ∀ d ∈ rest, nameChars.mem d = true := by
  obtain ⟨q, hshows, hq⟩ := exists_body .name
  obtain rfl : q = namePattern := by simpa [shows, mark?] using hshows
  rw [hq]
  show s.toList ∈ _ * (repeats _ 0 none * 1) ↔ _
  rw [mul_one, Language.mem_mul]
  constructor
  · rintro ⟨_, ⟨c, hc, rfl⟩, rest, hrest, hs⟩
    exact ⟨c, rest, hs.symm, hc, (Pattern.mem_repeats_set.mp hrest).2.2⟩
  · rintro ⟨c, rest, hs, hc, hrest⟩
    exact ⟨[c], ⟨c, hc, rfl⟩, rest,
      Pattern.mem_repeats_set.mpr ⟨Nat.zero_le _, by simp, hrest⟩, hs.symm⟩

theorem mem_nameChars {c : Char} (h : nameStart.mem c = true) : nameChars.mem c = true := by
  simp only [CharSet.mem, nameStart, nameChars, Text.Ranges.contains, any_cons, any_nil,
    Bool.or_false, Bool.or_eq_true, Bool.and_eq_true, decide_eq_true_iff] at h ⊢
  omega

theorem accepts_name_of_ec2Id (h : ec2Id.accepts s = true) : name.accepts s = true := by
  obtain ⟨q, hshows, hq⟩ := exists_body .ec2Id
  rw [hq] at h
  obtain ⟨hopens, hwithin⟩ := Bool.and_eq_true_iff.mp hshows
  have hall := Pattern.all_of_within hwithin h
  obtain ⟨u, hu, hus⟩ := Pattern.exists_of_opens hopens h
  obtain ⟨c, hc, hsta⟩ := (Option.any_eq_true ..).mp hu
  obtain ⟨rest, hs⟩ : ∃ rest, s.toList = c :: rest := by
    obtain ⟨v, hv⟩ := hus
    obtain ⟨rest, rfl⟩ := head?_eq_some_iff.mp hc
    exact ⟨rest ++ v, by rw [← hv, cons_append]⟩
  rw [hs] at hall
  exact accepts_name_iff.mpr ⟨c, rest, hs, hsta, (forall_mem_cons.mp hall).2⟩

theorem not_accepts_name {mark : List Char} {c : Char} (hmark : kind.mark? = some (mark, c))
    (h : kind.accepts s = true) : name.accepts s = false := by
  rw [Bool.eq_false_iff]
  intro hnm
  obtain ⟨d, rest, hs, hd, hrest⟩ := accepts_name_iff.mp hnm
  have hall : ∀ e ∈ s.toList, nameChars.mem e = true :=
    hs ▸ forall_mem_cons.mpr ⟨mem_nameChars hd, hrest⟩
  have hc := hall c (accepts_marked hmark h).2
  have hno : nameChars.mem c = false := by
    cases kind <;> cases hmark <;> decide
  rw [hno] at hc
  cases hc

theorem eq_of_accepts (h : kind.accepts s = true) (h' : kind'.accepts s = true)
    (hnm : kind ≠ .name) (hnm' : kind' ≠ .name) : kind = kind' := by
  have hid : ∀ {k : ImportRef}, k.accepts s = true → k.mark? ≠ none →
      ec2Id.accepts s = true → False := by
    intro k hk hne hec2
    obtain ⟨m, hm⟩ := Option.ne_none_iff_exists'.mp hne
    have hnm := accepts_name_of_ec2Id hec2
    rw [not_accepts_name hm hk] at hnm
    cases hnm
  cases hm : kind.mark? with
  | none =>
    obtain rfl := eq_ec2Id_of_mark? hnm hm
    by_contra hne
    exact hid h' (fun hnone => hne (eq_ec2Id_of_mark? hnm' hnone).symm) h
  | some m =>
    cases hm' : kind'.mark? with
    | none =>
      obtain rfl := eq_ec2Id_of_mark? hnm' hm'
      exact (hid h (by simp [hm]) h').elim
    | some m' =>
      have hcompare := prefix_or_prefix_of_prefix (accepts_marked hm h).1
        (accepts_marked hm' h').1
      by_contra hne
      exact hcompare.elim (not_isPrefix_mark? hne hm hm') (not_isPrefix_mark? (Ne.symm hne) hm' hm)

/-- The first kind that accepts is the same in every order with EC2 ids before names. -/
theorem find?_eq {order : List ImportRef} (hall : ∀ k, k ∈ order)
    (hbef : order.idxOf .ec2Id < order.idxOf .name) (h : kind.accepts s = true)
    (hnm : kind = .name → ∀ k : ImportRef, k.accepts s = true → k = .name) :
    order.find? (·.accepts s) = some kind := by
  cases hfind : order.find? (·.accepts s) with
  | none => exact absurd h (find?_eq_none.mp hfind kind (hall kind))
  | some k =>
    obtain ⟨hk, before, after, hord, hfst⟩ := find?_eq_some_iff_append.mp hfind
    congr 1
    by_cases hkind : kind = .name
    · rw [hnm hkind k hk, hkind]
    by_cases hkname : k = .name
    · -- a name that is found before the id
      subst hkname
      have hec2 : kind = .ec2Id := by
        cases hm : kind.mark? with
        | none => exact eq_ec2Id_of_mark? hkind hm
        | some m => rw [not_accepts_name hm h] at hk; cases hk
      subst hec2
      rw [hord] at hbef
      have hnot : ImportRef.ec2Id ∉ before := fun hmem => by simpa [h] using hfst _ hmem
      have hnot' : ImportRef.name ∉ before := fun hmem => by simpa [hk] using hfst _ hmem
      rw [idxOf_append_of_notMem hnot, idxOf_append_of_notMem hnot',
        idxOf_cons_self] at hbef
      omega
    · exact eq_of_accepts hk h hkname hkind

/-- **Kinds.** No reference is of two kinds other than names; ids are names, and no other reference
is. So any order of the kinds in which ids come before names finds the same kind. -/
theorem classify?_of_order :
    (∀ s : String,
      (∀ k k' : ImportRef, k ≠ .name → k' ≠ .name → k.accepts s = true → k'.accepts s = true →
        k = k') ∧
      (ec2Id.accepts s = true → name.accepts s = true) ∧
      ∀ k : ImportRef, k ≠ .ec2Id → k ≠ .name → k.accepts s = true → name.accepts s = false) ∧
    ∀ order : List ImportRef, order.Perm all → order.idxOf .ec2Id < order.idxOf .name →
      ∀ s, order.find? (·.accepts s) = classify? s := by
  refine ⟨fun s => ⟨fun k k' hk hk' h h' => eq_of_accepts h h' hk hk', accepts_name_of_ec2Id,
    fun k hid hnm h => ?_⟩, fun order hperm hbef s => ?_⟩
  · cases hm : k.mark? with
    | none => exact absurd (eq_ec2Id_of_mark? hnm hm) hid
    | some m => exact not_accepts_name hm h
  · cases hclass : classify? s with
    | none => exact List.find?_eq_none.mpr fun k _ => List.find?_eq_none.mp hclass k (mem_all k)
    | some kind =>
      have hkind := List.find?_some hclass
      refine find?_eq (fun k => hperm.mem_iff.mpr (mem_all k)) hbef hkind ?_
      rintro rfl k hk
      by_contra hne
      have hfind := find?_eq mem_all (by decide) hk fun h => absurd h hne
      rw [classify?, hfind] at hclass
      exact hne (Option.some.inj hclass)

/-- The kinds the other way round, but for ids before names. -/
theorem classify?_of_order_reversed :
    ec2Id.accepts "vol-0a1b2c3d" = true ∧ name.accepts "vol-0a1b2c3d" = true ∧
    [.logGroup, .kmsAlias, .ec2Id, .name, .tagClause, .url, .s3Url, .arn].find?
      (accepts · "vol-0a1b2c3d") = classify? "vol-0a1b2c3d" := by
  have hid : ec2Id.accepts "vol-0a1b2c3d" = true := by decide +kernel
  obtain ⟨hkinds, hord⟩ := classify?_of_order
  exact ⟨hid, (hkinds _).2.1 hid, hord _ (by decide) (by decide) _⟩

end Provision.ImportRef
