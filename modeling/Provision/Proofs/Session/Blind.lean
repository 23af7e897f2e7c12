import Provision.Proofs.Session.Abreast.Registration
import Provision.Proofs.Session.Shape

/-!
# What registration does not look at

Registration adds findings without looking at those that are there already, and it has nothing to do
with the shapes of decorations or with checks that wait for values. So it comes to the same whatever
was found before it (`Session.blind_registerProgram`).
-/

namespace Provision.Session

variable {s : Session}

/-- The session with findings before its own, and with other notes about decorations. -/
def shifted (s : Session) (findings : List Diagnostic) (halted : List Span)
    (deferred : List DeferredCheck) : Session :=
  { s with findings := findings ++ s.findings, halted, deferred }

theorem shifted_walkShapes (k : Checker) (ds : List Decl) : ((walkShapes k ds).run {}).2 =
    ({} : Session).shifted ((Decl.listsAll ds).filterMap (shapeFinding? k))
      ((Decl.listsAll ds).filterMap (haltedAt? k)).reverse [] := by
  rw [run_walkShapes, List.append_nil, shifted, List.append_nil]
  rfl

section Shifted

variable (findings : List Diagnostic) (halted : List Span) (deferred : List DeferredCheck)

theorem abreast_shifted {g : Session → Session}
    (hg : ∀ s, g (s.shifted findings halted deferred) = (g s).shifted findings halted deferred) :
    Abreast (fun s t => t = s.shifted findings halted deferred) Eq (modify g : Checking Unit)
      (modify g : Checking Unit) :=
  Abreast.modify fun s _ hst => hst ▸ hg s

/-- Registration looks neither at findings nor at what was left for later. -/
theorem enrols_shifted : Enrols id fun s t => t = s.shifted findings halted deferred where
  slack := Ty.slack_eq
  resolve h _ := h ▸ Scopes.locates_eq.mpr rfl
  get? h _ := h ▸ Ty.rel_eq.mpr rfl
  current h := h ▸ rfl
  length h := h ▸ rfl
  qualify h _ _ := h ▸ rfl
  aliases h _ := h ▸ rfl
  isRegistered h _ := h ▸ rfl
  body h := h ▸ rfl
  component h := h ▸ rfl
  reader h := h ▸ rfl
  depth h := h ▸ rfl
  report h := h ▸ abreast_shifted findings halted deferred fun _ => by
    simp only [shifted, List.append_assoc]
  set h hab _ := h ▸ hab ▸ rfl
  within h _ := h ▸ rfl
  inside h _ _ := h ▸ rfl
  outside h h' := h ▸ h' ▸ rfl
  newChild h h' _ := h ▸ h' ▸ rfl
  atDepth h _ := h ▸ rfl
  reading h _ := h ▸ rfl
  edge _ _ _ _ := abreast_shifted findings halted deferred fun _ => rfl
  external _ _ := abreast_shifted findings halted deferred fun _ => rfl
  dependency _ _ := abreast_shifted findings halted deferred fun _ => rfl
  mark _ := abreast_shifted findings halted deferred fun _ => rfl
  noteAlias h _ := h ▸ rfl
  noteSchema h _ d := by
    rw [h, d.redecorate_id]
    rfl
  modify h _ _ _ := h ▸ rfl
  nested h _ := h ▸ rfl
  node _ _ := abreast_shifted findings halted deferred fun _ => rfl
  entry h _ _ := h ▸ rfl
  use _ _ := abreast_shifted findings halted deferred fun _ => rfl
  count _ _ := abreast_shifted findings halted deferred fun _ => rfl
  addComponent h _ _ _ := by
    rw [h, Decl.redecorateAll_id]
    rfl

/-- Registration comes to the same whatever was found before it. -/
theorem blind_registerProgram (ds : List Decl) :
    (registerProgram ds).run (s.shifted findings halted deferred) =
      (((registerProgram ds).run s).1,
        ((registerProgram ds).run s).2.shifted findings halted deferred) := by
  obtain ⟨hrt, haft⟩ :=
    (enrols_shifted findings halted deferred).registerProgram ds s _ rfl
  rw [Decl.redecorateAll_id] at hrt haft
  exact Prod.ext hrt.symm haft

end Shifted

end Provision.Session
