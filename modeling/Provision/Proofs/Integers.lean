import Provision.Proofs.Arguments
import Provision.Proofs.Nesting

/-!
# Integers among literals

A numeral has no sign, and one beyond 63 bits is a fault. So an integer in the source is not
negative, and the signs that are written before it are taken in without leaving 64 bits: the one
integer of 64 bits that has no negative among them is never met (`Expr.literal64?_eq`).
-/

namespace Provision

/-- The integer, if 64 bits can hold it. -/
def int64? (n : Int) : Option Int :=
  if Int64.minValue.toInt ≤ n ∧ n ≤ Int64.maxValue.toInt then some n else none

theorem int64?_of_lt {n : Int} (hlo : -2 ^ 63 < n) (hhi : n < 2 ^ 63) : int64? n = some n := by
  have hmin : Int64.minValue.toInt = -2 ^ 63 := by decide
  have hmax : Int64.maxValue.toInt = 2 ^ 63 - 1 := by decide
  rw [int64?, if_pos]
  omega

namespace Expr

/-- A minus sign before a literal. -/
def negated64? : Option Lit → Option (Option Lit)
  | some (.int n) => return some (.int (← int64? (-n)))
  | some (.float x) => return some (.float x.neg)
  | _ => return none

/-- The literal that an expression stands for, where each integer on the way is held in 64 bits.
There is no result if one of them does not fit. -/
def literal64? : Expr → Option (Option Lit)
  | .lit (.int n) _ => return some (.int (← int64? n))
  | .lit value _ => return some value
  | .paren inner _ => literal64? inner
  | .unary .neg operand _ => do negated64? (← literal64? operand)
  | _ => return none

variable {p : Program} {e : Expr}

theorem readable_of_hasExpr {value : Lit} {span : Span} (h : p.WellFormed)
    (he : p.HasExpr (.lit value span)) : value.Readable := by
  rcases h.fits he with ⟨depth, power, hfits⟩ | ⟨_, _, _, _, _, _, _, heq, -⟩
  · cases hfits with
    | lit _ hval => exact hval
  · cases heq

theorem lt_of_readable {n : Int} (h : (Lit.int n).Readable) : 0 ≤ n ∧ n < 2 ^ 63 := by
  have hlt : n.toNat < 2 ^ 63 := h.2
  have hle := h.1
  omega

/-- Among the expressions of a program, the two readings of signed literals agree. -/
theorem literal64?_eq (h : p.WellFormed) (he : p.HasExpr e) : e.literal64? = some e.literal? ∧
    ∀ n, e.literal? = some (.int n) → -2 ^ 63 < n ∧ n < 2 ^ 63 := by
  fun_induction literal? e with
  | case1 value span =>
    have hval := readable_of_hasExpr h he
    cases value with
    | int n =>
      have hlt := lt_of_readable hval
      have hlo : -2 ^ 63 < n := by omega
      refine ⟨?_, fun m hm => ?_⟩
      · rw [literal64?, int64?_of_lt hlo hlt.2]
        rfl
      · obtain rfl : n = m := by injection hm with hm; injection hm
        exact ⟨hlo, hlt.2⟩
    | _ => exact ⟨rfl, fun _ hn => by cases hn⟩
  | case2 inner span ih => exact ih (he.inside (List.mem_singleton_self _))
  | case3 operand span n hn ih =>
    obtain ⟨hoperand, hbounds⟩ := ih (he.inside (List.mem_singleton_self _))
    have hlt := hbounds n hn
    have hlo : -2 ^ 63 < -n := by omega
    have hhi : -n < 2 ^ 63 := by omega
    refine ⟨?_, fun m hm => ?_⟩
    · rw [literal64?, hoperand, hn, Option.bind_eq_bind, Option.bind_some, negated64?,
        int64?_of_lt hlo hhi]
      rfl
    · obtain rfl : -n = m := by injection hm with hm; injection hm
      exact ⟨hlo, hhi⟩
  | case4 operand span x hx ih =>
    have hoperand := (ih (he.inside (List.mem_singleton_self _))).1
    rw [literal64?, hoperand, hx]
    exact ⟨rfl, fun _ hn => by cases hn⟩
  | case5 operand span hint hfloat ih =>
    have hoperand := (ih (he.inside (List.mem_singleton_self _))).1
    rw [literal64?, hoperand, Option.bind_eq_bind, Option.bind_some, negated64?.eq_3 _ hint hfloat]
    exact ⟨rfl, fun _ hn => by cases hn⟩
  | case6 e hlit hparen hneg =>
    rw [literal64?.eq_5 _ (fun _ => hlit _) hlit hparen hneg]
    exact ⟨rfl, fun _ hn => by cases hn⟩

end Expr

/-- **Integers.** In a program that was read every integer literal is from 0 to `2 ^ 63 - 1`. The
literal that an expression stands for is found without leaving 64 bits, and if it is an integer, it
is from `-(2 ^ 63 - 1)` to `2 ^ 63 - 1`. -/
theorem Program.literals_of_parse {source : String} {p : Program}
    (h : Program.parse source = .ok p) {e : Expr} (he : p.HasExpr e) :
    (∀ n span, e = .lit (.int n) span → 0 ≤ n ∧ n ≤ 2 ^ 63 - 1) ∧
    e.literal64? = some e.literal? ∧
    ∀ n, e.literal? = some (.int n) → -(2 ^ 63 - 1) ≤ n ∧ n ≤ 2 ^ 63 - 1 := by
  have hwf := Program.wellFormed_of_parse h
  obtain ⟨hagree, hbounds⟩ := Expr.literal64?_eq hwf he
  refine ⟨?_, hagree, fun n hn => ?_⟩
  · rintro n span rfl
    have hlt := Expr.lt_of_readable (Expr.readable_of_hasExpr hwf he)
    omega
  · have hlt := hbounds n hn
    omega

/-- The least integer that can be written. -/
private def leastInt : String := "var n = -(9223372036854775807)"

private instance : Program.Spelled leastInt := ⟨_, rfl⟩

theorem Program.literals_of_parse_least : ∃ p e, Program.parse leastInt = .ok p ∧ p.HasExpr e ∧
    e.literal? = some (.int (-(2 ^ 63 - 1))) ∧
    (∀ n span, e = .lit (.int n) span → 0 ≤ n ∧ n ≤ 2 ^ 63 - 1) ∧
    e.literal64? = some e.literal? ∧
    ∀ n, e.literal? = some (.int n) → -(2 ^ 63 - 1) ≤ n ∧ n ≤ 2 ^ 63 - 1 := by
  have hrun : ((Program.parse leastInt).toOption.any fun p => p.items.any fun d =>
      d.exprs.any fun e => e.literal? = some (.int (-(2 ^ 63 - 1)))) = true := by
    decide +kernel
  obtain ⟨p, hprs, hany⟩ := Checker.exists_of_parse hrun
  obtain ⟨d, hd, hany⟩ := List.any_eq_true.mp hany
  obtain ⟨e, he, hlit⟩ := List.any_eq_true.mp hany
  have he : p.HasExpr e := .outermost hd (.value he)
  exact ⟨p, e, hprs, he, of_decide_eq_true hlit, Program.literals_of_parse hprs he⟩

end Provision
