import Provision.Proofs.Checker
import Provision.Proofs.Offsets
import Provision.Proofs.Spans
import Provision.Proofs.Tiling

/-!
# Where declarations stand

The nodes of a declaration are its decorations and then its parts in the order in which they are
written; a decoration with several values has one node around them. The tokens of a source stand one
behind the other (`Token.ordered_scan`), so the nodes of a program that was read do
(`Program.within_of_parse`), at every depth; and the program is well-formed
(`Program.wellFormed_of_parse`). What stands inside each declaration in front of those inside it
(`Decl.Leading`) lies side by side in the whole program: so no two declarations have their names at
the same place, and no two lists of decorations are known by the same span
(`Program.nodup_marks_of_parse`).
-/

namespace Provision

open Parse List Decoration Decl
open Cursor (Placed)

variable {source : String} {p : Program}

/-! ### Parts of declarations -/

def NamedArg.node (a : NamedArg) : Node := .mk a.span [a.name.node, a.value.node]

def Arguments.nodes : Arguments → List Node
  | .bare | .empty => []
  | .value arg => [arg.node]
  | .named args => args.map NamedArg.node

def Decoration.node (d : Decoration) : Node := .mk d.span (d.name.node :: d.args.nodes)

def SchemaProperty.node (q : SchemaProperty) : Node :=
  .mk q.span (q.decorations.map Decoration.node ++ [q.type.node] ++ [q.name.node] ++
    q.default.toList.map Expr.node)

def Init.node (i : Init) : Node := .mk i.span [i.name.node, i.value.node]

def Param.node (q : Param) : Node := .mk q.span [q.type.node, q.name.node]

theorem NamedArg.adds_parse (steps : Nat) : Adds 2 steps (NamedArg.parse steps) (fun a => [a.node])
    (Single fun a => Token.isIdentifier a.name.text ∧ a.value.Fits 0 0) := by
  refine fun hsteps => places_start fun start => places_ident.bind fun name c₁ hnm => ?_
  refine places_expectMark fun c₂ hlt => ?_
  refine ((Expr.adding steps).item (by omega)).bind fun value c₃ hval => ?_
  exact places_close (by simp) (fun _ => rfl) fun _ => ⟨⟨hnm.1, hval.1⟩, by omega⟩

/-- The second token tells arguments with names from those without. -/
theorem Arguments.adds_parse (steps : Nat) : Adds 3 steps (Arguments.parse steps) Arguments.nodes
    fun c args c' => args.WellFormed ∧ args ≠ .bare ∧ c'.rest.length ≤ c.rest.length := by
  intro c size lo ns hsteps
  refine places_if (fun _ => ?_) fun _ => places_isAtAssignment fun isNamed => ?_
  · exact places_pure (append_nil ns) ⟨trivial, nofun, le_rfl⟩
  split
  · refine (NamedArg.commas.adds NamedArg.adds_parse (by omega)).bind fun args c₁ hargs => ?_
    exact places_pure rfl ⟨⟨hargs.1, hargs.2.1⟩, nofun, hargs.2.2.le⟩
  -- several values stand in an array that reaches from the first to the last
  refine places_part (f := Arguments.nodes) fun start => ?_
  refine ((Expr.adding steps).parseList (by omega)).bind fun values c₁ hvals => ?_
  obtain ⟨hne, hfits, hlt⟩ := hvals
  split
  · have hwf := wellFormed_value (hfits _ (mem_singleton_self _))
    exact places_pure rfl ⟨⟨_, rfl⟩, hwf, nofun, hlt.le⟩
  · next hsingle =>
    refine places_close (by simpa using hne) (fun span => ?_)
      fun span => ⟨⟨_, rfl⟩, ?_, nofun, hlt.le⟩
    · rw [Arguments.nodes, Expr.node, Expr.nodes_eq_map]
      rfl
    · cases values with
      | nil => exact absurd rfl hne
      | cons first values =>
        cases values with
        | nil => exact absurd rfl (hsingle first)
        | cons second others => exact hfits

theorem Decoration.adds_parse (steps : Nat) :
    Adds 0 steps (parse steps) (fun d => [d.node]) fun c d c' =>
      d.WellFormed ∧ (d.args = .bare → c'.current.token ≠ .punct .openParen) ∧
        c'.rest.length < c.rest.length := by
  refine fun hsteps => places_start fun start => places_advance fun c₁ hle => ?_
  refine places_ident.bind fun name c₂ hnm => places_if (fun hparen => ?_) fun hparen => ?_
  · refine places_next (hparen ▸ Token.noConfusion) fun c₃ hlt => ?_
    refine (Arguments.adds_parse steps (by omega)).bind fun args c₄ hargs => ?_
    refine places_expectMark fun c₅ hlt' => places_close (by simp) (fun _ => rfl) fun _ => ?_
    exact ⟨⟨hnm.1, hargs.1⟩, fun hbare => absurd hbare hargs.2.1, by omega⟩
  · exact places_close (by simp) (fun _ => rfl) fun _ =>
      ⟨⟨hnm.1, trivial⟩, fun _ => hparen, by omega⟩

theorem Decoration.adds_parseList (steps : Nat) :
    Adds 1 steps (parseList steps) (fun ds => ds.map Decoration.node) fun c ds c' =>
      Listed c.current.token ds c'.current.token ∧ c'.rest.length ≤ c.rest.length := by
  induction steps with
  | zero => exact fun hsteps => absurd hsteps (by omega)
  | succ steps ih =>
    intro c size lo ns hsteps
    rw [parseList_succ]
    refine places_if (fun _ => ?_) fun _ => ?_
    · refine (adds_parse steps (by omega)).bind fun d c₁ hd => ?_
      refine (ih (by omega)).bind fun ds c₂ hds => places_pure (by simp) ?_
      exact ⟨hds.1.cons hd.1 hd.2.1, by omega⟩
    · exact places_pure (append_nil ns)
        ⟨⟨forall_mem_nil _, False.elim, fun _ => rfl⟩, le_rfl⟩

def Decoration.first (ds : List Decoration) : List Node := (ds.head?.map node).toList

theorem Decoration.first_sublist (ds : List Decoration) : (first ds).Sublist (ds.map node) := by
  cases ds with
  | nil => exact Sublist.refl _
  | cons d ds => exact .cons_cons _ (nil_sublist _)

theorem Decoration.marks_eq (lists : List (List Decoration)) :
    marks lists = (lists.flatMap first).map Node.span := by
  rw [marks, filterMap_eq_flatMap_toList, map_flatMap]
  refine flatMap_congr fun ds _ => ?_
  cases ds <;> rfl

theorem Expr.adds_parseInitializer (steps : Nat) :
    Adds 0 steps (Expr.parseInitializer steps) (fun value => value.toList.map Expr.node)
      fun c value c' => (∀ e, value = some e → e.Fits 0 0) ∧
        c'.rest.length ≤ c.rest.length := by
  intro c size lo ns hsteps
  refine places_if (fun hassign => ?_) fun _ => ?_
  · refine places_next (hassign ▸ Token.noConfusion) fun c₁ hlt => ?_
    refine ((Expr.adding steps).item (by omega)).bind fun e c₂ he => ?_
    refine places_pure rfl ⟨fun e' h => ?_, by omega⟩
    cases h
    exact he.1
  · exact places_pure (append_nil ns) ⟨nofun, le_rfl⟩

theorem SchemaProperty.adds_parse (steps : Nat) :
    Adds 2 steps (SchemaProperty.parse steps) (fun q => [q.node]) (Single WellFormed) := by
  refine fun hsteps => places_start fun start => ?_
  refine (adds_parseList steps (by omega)).bind fun ds c₁ hds => ?_
  refine ((TypeExpr.adding steps).parse (by omega)).bind fun type c₂ hty => ?_
  refine places_name.bind fun name c₃ hlt => ?_
  refine (Expr.adds_parseInitializer steps (by omega)).bind fun default c₄ hdefault => ?_
  exact places_close (by simp) (fun _ => rfl) fun _ => ⟨⟨hds.1.wellFormed, hty.1,
    fun hends => hty.2.1 (hds.1.ne_openParen hends), hdefault.1⟩, by omega⟩

theorem Init.adds_parse (steps : Nat) : Adds 0 steps (Init.parse steps) (fun i => [i.node])
    (Single (·.value.Fits 0 0)) := by
  refine fun hsteps => places_start fun start => places_name.bind fun name c₁ hlt => ?_
  refine places_expectMark fun c₂ hlt' => ?_
  refine ((Expr.adding steps).item (by omega)).bind fun value c₃ hval => ?_
  exact places_close (by simp) (fun _ => rfl) fun _ => ⟨hval.1, by omega⟩

theorem Init.adds_parseBody (steps : Nat) :
    Adds 0 steps (Init.parseBody steps) (fun body => body.map Init.node)
      (Several (·.value.Fits 0 0)) := by
  refine fun hsteps => places_expectMark fun c₁ hlt => ?_
  refine (Init.bracketed.adds Init.adds_parse (by omega)).bind fun body c₂ hbody => ?_
  exact places_expectMark fun c₃ hlt' => places_pure rfl ⟨hbody.1, by omega⟩

theorem Param.adds_parse (steps : Nat) : Adds 2 steps (Param.parse steps) (fun q => [q.node])
    (Single WellFormed) := by
  refine fun hsteps => places_start fun start => ?_
  refine ((TypeExpr.adding steps).parse (by omega)).bind fun type c₁ hty => ?_
  refine places_ident.bind fun name c₂ hnm => ?_
  exact places_close (by simp) (fun _ => rfl) fun _ => ⟨⟨hty.1, hnm.1⟩, by omega⟩

/-! ### Declarations -/

namespace Decl

mutual

def node : Decl → Node
  | .schema d => .mk d.span (d.decorations.map Decoration.node ++ [d.name.node] ++
      d.properties.map SchemaProperty.node)
  | .resource d => .mk d.span (d.decorations.map Decoration.node ++ [d.schema.node] ++
      [d.name.node] ++ d.body.map Init.node)
  | .component decs name body span =>
    .mk span (decs.map Decoration.node ++ [name.node] ++ nodes body)
  | .inst d => .mk d.span (d.decorations.map Decoration.node ++ [d.component.node] ++
      [d.name.node] ++ d.body.map Init.node)
  | .input d => .mk d.span (d.decorations.map Decoration.node ++ [d.type.node] ++
      [d.name.node] ++ d.default.toList.map Expr.node)
  | .output d => .mk d.span (d.decorations.map Decoration.node ++ [d.type.node] ++
      [d.name.node] ++ d.value.toList.map Expr.node)
  | .var d => .mk d.span (d.decorations.map Decoration.node ++ d.type.toList.map TypeExpr.node ++
      [d.name.node] ++ [d.value.node])
  | .function d => .mk d.span (d.decorations.map Decoration.node ++ [d.name.node] ++
      d.params.map Param.node ++ d.result.toList.map TypeExpr.node ++ [d.body.node])
  | .alias d => .mk d.span (d.decorations.map Decoration.node ++ [d.name.node] ++ [d.type.node])

def nodes : List Decl → List Node
  | [] => []
  | d :: ds => d.node :: nodes ds

end

theorem nodes_eq_map (ds : List Decl) : nodes ds = ds.map node := by
  induction ds with
  | nil => rw [nodes, map_nil]
  | cons d ds ih => rw [nodes, ih, map_cons]

section Single

variable {steps : Nat} {ds : List Decoration} {start : Nat}

/-- With enough steps, a reader completes a declaration behind its decorations. -/
def Completes (steps : Nat) (ds : List Decoration) (start : Nat) (m : Parse Decl) : Prop :=
  ∀ {c size}, 4 * c.rest.length + 2 ≤ steps → Places c size start (ds.map Decoration.node) m
    (fun d => [d.node]) fun d c' => d.WellFormed ∧ c'.rest.length ≤ c.rest.length

variable (hds : ∀ d ∈ ds, d.WellFormed)
include hds

theorem completes_parseSchema : Completes steps ds start (parseSchema steps ds start) := by
  refine fun hsteps => places_ident.bind fun name c₁ hnm => places_expectMark fun c₂ hlt => ?_
  refine (SchemaProperty.bracketed.adds SchemaProperty.adds_parse (by omega)).bind
    fun qs c₃ hqs => places_expectMark fun c₄ hlt' => ?_
  exact places_close (by simp) (fun _ => by rw [node]) fun _ =>
    ⟨⟨.schema hnm.1 hqs.1, hds⟩, by omega⟩

theorem completes_parseResource : Completes steps ds start (parseResource steps ds start) := by
  refine fun hsteps => places_ident.bind fun schema c₁ hsch => ?_
  refine places_ident.bind fun name c₂ hnm => ?_
  refine (Init.adds_parseBody steps (by omega)).bind fun body c₃ hbody => ?_
  exact places_close (by simp) (fun _ => by rw [node]) fun _ =>
    ⟨⟨.resource hsch.1 hnm.1 hbody.1, hds⟩, by omega⟩

theorem places_parseInstance {comp : Ident} (hcomp : Token.isIdentifier comp.text)
    {c : Cursor} {size : Nat} (hsteps : 4 * c.rest.length ≤ steps) :
    Places c size start (ds.map Decoration.node ++ [comp.node])
      (parseInstance steps ds start comp) (fun d => [d.node])
      fun d c' => d.WellFormed ∧ c'.rest.length ≤ c.rest.length := by
  refine places_ident.bind fun name c₁ hnm => ?_
  refine (Init.adds_parseBody steps (by omega)).bind fun body c₂ hbody => ?_
  exact places_close (by simp) (fun _ => by rw [node]) fun _ =>
    ⟨⟨.inst hcomp hnm.1 hbody.1, hds⟩, by omega⟩

theorem completes_parseInput : Completes steps ds start (parseInput steps ds start) := by
  refine fun hsteps => ((TypeExpr.adding steps).parse (by omega)).bind fun type c₁ hty => ?_
  refine places_ident.bind fun name c₂ hnm => ?_
  refine (Expr.adds_parseInitializer steps (by omega)).bind fun default c₃ hdefault => ?_
  exact places_close (by simp) (fun _ => by rw [node]) fun _ =>
    ⟨⟨.input hty.1 hnm.1 hdefault.1, hds⟩, by omega⟩

theorem completes_parseOutput : Completes steps ds start (parseOutput steps ds start) := by
  refine fun hsteps => ((TypeExpr.adding steps).parse (by omega)).bind fun type c₁ hty => ?_
  refine places_ident.bind fun name c₂ hnm => ?_
  refine (Expr.adds_parseInitializer steps (by omega)).bind fun value c₃ hval => ?_
  exact places_close (by simp) (fun _ => by rw [node]) fun _ =>
    ⟨⟨.output hty.1 hnm.1 hval.1, hds⟩, by omega⟩

omit hds in
theorem adds_optional (isLeftOut : Bool) : Adds 2 steps
    (if isLeftOut then pure none else some <$> TypeExpr.parse steps)
    (fun type => type.toList.map TypeExpr.node) fun c type c' =>
      (∀ t, type = some t → t.WellFormed) ∧ c'.rest.length ≤ c.rest.length := by
  intro c size lo ns hsteps
  split
  · exact places_pure (append_nil ns) ⟨nofun, le_rfl⟩
  · rw [map_eq_pure_bind]
    refine ((TypeExpr.adding steps).parse hsteps).bind fun type c₁ hty => ?_
    refine places_pure rfl ⟨fun t ht => ?_, hty.2.2.le⟩
    cases ht
    exact hty.1

theorem completes_parseVar : Completes steps ds start (parseVar steps ds start) := by
  refine fun hsteps => places_isAtAssignment fun _ => ?_
  refine (adds_optional _ (by omega)).ite_bind fun type c₁ hty => ?_
  refine places_ident.bind fun name c₂ hnm => places_expectMark fun c₃ hlt => ?_
  refine ((Expr.adding steps).item (by omega)).bind fun value c₄ hval => ?_
  exact places_close (by simp) (fun _ => by rw [node]) fun _ =>
    ⟨⟨.var hty.1 hnm.1 hval.1, hds⟩, by omega⟩

/-- A function is complete with the brace behind its body. -/
theorem completes_parseFunction : Completes steps ds start (parseFunction steps ds start) := by
  intro c size hsteps
  have hps : ∀ isEmpty : Bool, Adds 3 steps (if isEmpty then pure [] else Param.parseList steps)
      (fun qs => qs.map Param.node) (Several Param.WellFormed) := by
    intro isEmpty c size lo ns hsteps
    cases isEmpty with
    | true => exact places_pure (append_nil ns) ⟨forall_mem_nil _, le_rfl⟩
    | false =>
      refine (Param.commas.adds Param.adds_parse hsteps).imp fun _ _ hqs => ?_
      exact ⟨hqs.2.1, hqs.2.2.le⟩
  refine places_ident.bind fun name c₁ hnm => places_expectMark fun c₂ hlt => ?_
  refine places_look (fun c => c.current.token == .punct .closeParen) ?_
  refine (hps _ (by omega)).ite_bind fun params c₃ hps => ?_
  refine places_expectMark fun c₄ hlt₄ => ?_
  refine places_look (fun c => c.current.token == .punct .openBrace) ?_
  refine (adds_optional _ (by omega)).ite_bind fun result c₅ hrt => ?_
  refine places_expectMark fun c₆ hlt₆ => ?_
  refine ((Expr.adding steps).item (by omega)).bind fun body c₇ hbody => ?_
  refine places_skipSeparators fun c₈ hle => places_expectMark fun c₉ hlt₉ => ?_
  exact places_close (by simp) (fun _ => by rw [node]) fun _ =>
    ⟨⟨.function hnm.1 hps.1 hrt.1 hbody.1, hds⟩, by omega⟩

theorem completes_parseAlias : Completes steps ds start (parseAlias steps ds start) := by
  refine fun hsteps => places_ident.bind fun name c₁ hnm => places_expectMark fun c₂ hlt => ?_
  refine ((TypeExpr.adding steps).parse (by omega)).bind fun type c₃ hty => ?_
  exact places_close (by simp) (fun _ => by rw [node]) fun _ =>
    ⟨⟨.alias hnm.1 hty.1, hds⟩, by omega⟩

end Single

/-- What the readers of declarations add. -/
structure Adding (steps : Nat) : Prop where
  parse : Adds 2 steps (parse steps) (fun d => [d.node]) (Single WellFormed)
  parseComponent : ∀ {ds}, (∀ d ∈ ds, d.WellFormed) → ∀ {start},
    Completes steps ds start (parseComponent steps ds start)
  parseBody : Adds 3 steps (parseBody steps) (fun ds => ds.map node) (Several WellFormed)

/-- Declarations and bodies call one another, so both are proved at once. -/
theorem adding (steps : Nat) : Adding steps := by
  induction steps with
  | zero => constructor <;> intros <;> exact fun hsteps => absurd hsteps (by omega)
  | succ steps ih =>
    constructor
    · intro c size lo ns hsteps
      rw [parse]
      refine places_start fun start => ?_
      refine (adds_parseList steps (by omega)).bind fun ds c₁ hlst => ?_
      have hds := hlst.1.wellFormed
      refine places_look (fun c => c.current.token) ?_
      have hnext : ∀ {word : Keyword} {m : Parse Decl}, c₁.current.token = .keyword word →
          Completes steps ds start m → Places c₁ size start ([] ++ ds.map Decoration.node)
            (advance >>= fun _ => m) (fun d => [d.node])
            fun d c' => d.WellFormed ∧ c'.rest.length < c.rest.length := by
        intro word m hword hm
        refine places_next (hword ▸ Token.noConfusion) fun c₂ hlt => ?_
        exact (hm (by omega)).imp fun d c' hd => ⟨hd.1, by omega⟩
      split
      · next hword => exact hnext hword (completes_parseSchema hds)
      · next hword => exact hnext hword (completes_parseResource hds)
      · next hword => exact hnext hword (ih.parseComponent hds)
      · next hword => exact hnext hword (completes_parseInput hds)
      · next hword => exact hnext hword (completes_parseOutput hds)
      · next hword => exact hnext hword (completes_parseVar hds)
      · next hword => exact hnext hword (completes_parseFunction hds)
      · next hword => exact hnext hword (completes_parseAlias hds)
      · exact places_throw nofun
    · intro ds hds start c size hsteps
      rw [parseComponent]
      refine places_ident.bind fun name c₁ hnm => places_look (fun c => c.current.token) ?_
      split
      · refine (places_parseInstance hds hnm.1 (by omega)).imp fun d c' hd => ?_
        exact ⟨hd.1, by omega⟩
      · refine places_expectMark fun c₂ hlt => ?_
        refine (ih.parseBody (by omega)).bind fun body c₃ hbody => ?_
        refine places_expectMark fun c₄ hlt' => places_close (by simp)
          (fun _ => by rw [node, nodes_eq_map]) fun _ => ⟨⟨.component hnm.1 ?_ ?_, hds⟩, by omega⟩
        · exact fun d hd => (hbody.1 d hd).core
        · exact fun d hd => (hbody.1 d hd).decorations
    · exact bracketed_body.adds_succ ih.parse ih.parseBody

theorem adds_parseAll (steps : Nat) : Adds 3 steps (parseAll steps) (fun ds => ds.map node)
    fun _ ds _ => ∀ d ∈ ds, d.WellFormed := by
  induction steps with
  | zero => exact fun hsteps => absurd hsteps (by omega)
  | succ steps ih =>
    intro c size lo ns hsteps
    rw [parseAll]
    refine places_skipSeparators fun c₁ hle => places_look (fun c => c.current.token) ?_
    split
    · exact places_pure (append_nil ns) (forall_mem_nil _)
    · refine ((adding steps).parse (by omega)).bind fun d c₂ hd => ?_
      refine (ih (by omega)).bind fun ds c₃ hds => places_pure (by simp) ?_
      exact forall_mem_cons.mpr ⟨hd.1, hds⟩

/-! ### What stands in each declaration -/

mutual

def declarations : Decl → List Decl
  | .component ds name body span => .component ds name body span :: declarationsAll body
  | .schema d => [.schema d]
  | .resource d => [.resource d]
  | .inst d => [.inst d]
  | .input d => [.input d]
  | .output d => [.output d]
  | .var d => [.var d]
  | .function d => [.function d]
  | .alias d => [.alias d]

/-- Declarations and those inside them at any depth. -/
def declarationsAll : List Decl → List Decl
  | [] => []
  | d :: ds => d.declarations ++ declarationsAll ds

end

theorem declarationsAll_eq_flatMap (ds : List Decl) :
    declarationsAll ds = ds.flatMap declarations := by
  induction ds with
  | nil => rfl
  | cons d ds ih => rw [declarationsAll, ih, flatMap_cons]

theorem declarations_eq (d : Decl) : d.declarations = d :: declarationsAll d.members := by
  cases d <;> rw [declarations] <;> rfl

/-- Nodes `own d` that stand inside each declaration `d`, in front of those inside it. -/
def Leading (own : Decl → List Node) : Prop := ∀ {d : Decl} {lo hi : Nat},
  Node.Within lo hi d.node.children → Node.Within lo hi (own d ++ nodes d.members)

variable {own : Decl → List Node}

theorem Leading.declarationsAll_of (ds : List Decl) (h : ∀ d ∈ ds, ∀ {lo hi : Nat},
      Node.Within lo hi [d.node] → Node.Within lo hi (d.declarations.flatMap own)) :
    ∀ {lo hi : Nat}, Node.Within lo hi (nodes ds) →
      Node.Within lo hi ((Decl.declarationsAll ds).flatMap own) := by
  intro lo hi hnodes
  induction ds generalizing lo with
  | nil => exact .nil
  | cons d ds ih =>
    obtain ⟨hd, hds⟩ := forall_mem_cons.mp h
    rw [nodes] at hnodes
    cases hnodes with
    | cons hlo hspan hhi hch hns =>
      rw [Decl.declarationsAll, flatMap_append]
      exact (hd (.cons hlo hspan le_rfl hch .nil)).append (ih hds hns)
        (hlo.trans hspan.le) le_rfl hhi

theorem Leading.declarationsAll (hlead : Leading own) (ds : List Decl) {lo hi : Nat} :
    Node.Within lo hi (nodes ds) → Node.Within lo hi ((declarationsAll ds).flatMap own) := by
  refine declarationsAll_of ds (fun d hd => ?_)
  clear hd
  induction d using members_induction with
  | h d ih =>
    rintro lo hi (_ | ⟨hlo, _, hhi, hch, _⟩)
    rw [declarations_eq, flatMap_cons]
    exact ((hlead hch).append_of (declarationsAll_of d.members ih)).mono hlo hhi

theorem leading_name : Leading fun d => [d.name.node] := by
  intro d lo hi h
  refine h.sublist ?_
  cases d <;> simp [node, Node.children, members, name, nodes]

/-! ### Lists of decorations -/

theorem lists_eq (d : Decl) : d.lists = d.declarations.flatMap ownLists := by
  induction d using members_induction with
  | h d ih =>
    rw [lists_eq_append, declarations_eq, flatMap_cons, listsAll_eq_flatMap,
      declarationsAll_eq_flatMap, flatMap_assoc, flatMap_congr ih]

theorem listsAll_eq (ds : List Decl) : listsAll ds = (declarationsAll ds).flatMap ownLists := by
  rw [listsAll_eq_flatMap, declarationsAll_eq_flatMap, flatMap_assoc,
    flatMap_congr fun d _ => lists_eq d]

theorem leading_first : Leading fun d => (ownLists d).flatMap first := by
  intro d lo hi h
  have hsublist : (first d.decorations ++
      (d.properties.map SchemaProperty.node ++ nodes d.members)).Sublist d.node.children := by
    have hfst := Decoration.first_sublist d.decorations
    cases d <;> simp only [node, Node.children, append_assoc] <;>
      exact hfst.append (by simp [members, properties, nodes])
  have hprop (q : SchemaProperty) :
      (first q.decorations).Sublist q.node.children := by
    simp only [SchemaProperty.node, Node.children, append_assoc]
    exact (Decoration.first_sublist _).trans (sublist_append_left _ _)
  simp only [ownLists, flatMap_cons, flatMap_map, append_assoc]
  exact (h.sublist hsublist).append_of fun h => h.flatMap hprop

end Decl

/-! ### The tokens of a source -/

theorem Token.ordered_scan (bytes : List Char) :
    Cursor.Ordered bytes.length ⟨Token.scanBytes bytes, bytes.length, 0⟩ where
  size_eq := rfl
  last_le := Nat.zero_le _
  bounds _ hl := ⟨Nat.zero_le _, Token.bounds_scanBytes hl⟩
  pairwise := Token.pairwise_scanBytes bytes
  lexed _ hl := Token.lexed_of_mem_scanFrom _ _ _ hl

/-! ### Programs -/

def Program.node (p : Program) : Node := .mk p.span (nodes p.items)

/-- Reading a source never runs out of steps. A program that was read is well-formed, and its
declarations stand inside it, from its first token to the end of the source. -/
theorem Program.parse_cases (source : String) : Program.parse source ≠ .error .stalled ∧
    ∀ p, Program.parse source = .ok p → p.WellFormed ∧ p.span.stop = source.utf8ByteSize ∧
      Node.Within p.span.start p.span.stop (nodes p.items) := by
  unfold Program.parse parseTokens
  dsimp only
  obtain ⟨hstl, hread⟩ := adds_parseAll (stepsFor _) (Nat.add_le_add_left (by decide) _)
    ⟨Token.ordered_scan (Text.encode source.toList), le_rfl, .nil⟩
  cases hrun : (parseAll _).run _ with
  | error e =>
    rw [hrun] at hstl
    exact ⟨fun h => hstl (Except.error.inj h ▸ rfl), nofun⟩
  | ok r =>
    refine ⟨nofun, ?_⟩
    rintro p ⟨⟩
    obtain ⟨hplaced, hits⟩ := hread r.1 r.2 hrun
    refine ⟨hits, Text.length_encode source, ?_⟩
    rw [nodes_eq_map]
    exact hplaced.within.mono le_rfl (hplaced.ordered.size_eq ▸ hplaced.ordered.last_le)

theorem Program.wellFormed_of_parse (h : Program.parse source = .ok p) : p.WellFormed :=
  ((Program.parse_cases source).2 p h).1

theorem Program.within_of_parse (h : Program.parse source = .ok p) :
    p.span.stop = source.utf8ByteSize ∧
      Node.Within p.span.start p.span.stop (nodes p.items) :=
  ((Program.parse_cases source).2 p h).2

theorem Program.dotFree_of_parse (h : Program.parse source = .ok p) : p.DotFree :=
  (Program.wellFormed_of_parse h).dotFree

/-- In a program that was read no two lists of decorations are known by the same span. -/
theorem Program.nodup_marks_of_parse
    (h : Program.parse source = .ok p) : (marks (listsAll p.items)).Nodup := by
  have hwithin := (Program.within_of_parse h).2
  have hfst := (leading_first.declarationsAll p.items hwithin).nodup_spans
  rw [← flatMap_assoc, ← listsAll_eq] at hfst
  rw [marks_eq]
  exact hfst

/-- **Spans.** In a program that was read no part is empty, and each lies inside the source and
inside the part around it; parts side by side do not overlap and come in the order of the source. So
no two declarations have their names at the same place, and no two lists of decorations their
first. -/
theorem Program.orderly_of_parse {source : String} {p : Program}
    (h : Program.parse source = .ok p) :
    (∀ n ∈ Node.allOf (Decl.nodes p.items),
      n.span.start < n.span.stop ∧ n.span.stop ≤ source.utf8ByteSize) ∧
    (∀ n ∈ p.node.all, n.Orderly) ∧
    ((Decl.declarationsAll p.items).map (·.name.span)).Nodup ∧
    (Decoration.marks (Decl.listsAll p.items)).Nodup := by
  obtain ⟨hstop, hwithin⟩ := Program.within_of_parse h
  refine ⟨fun n hn => ?_, fun n hn => ?_, ?_, Program.nodup_marks_of_parse h⟩
  · obtain ⟨hspan, hle, -⟩ := hwithin.of_mem_allOf hn
    exact ⟨hspan, hstop ▸ hle⟩
  · rw [Node.all_eq, List.mem_cons] at hn
    rcases hn with rfl | hn
    · exact Node.Within.orderly hwithin
    · exact (hwithin.of_mem_allOf hn).2.2
  · have hnms := (Decl.leading_name.declarationsAll p.items hwithin).nodup_spans
    rw [List.map_flatMap] at hnms
    rw [List.map_eq_flatMap]
    exact hnms

/-- A schema with a decorated property, and a component with a decorated input. -/
private def nestedParts : String :=
  "@t(1, 2) schema S \x7b @m() (a|b)[] p = -x.y \x7d
component C \x7b @n(k=1) input a i = f(\x7bk:(2)\x7d) \x7d"

private instance : Program.Spelled nestedParts := ⟨_, rfl⟩

theorem Program.orderly_of_parse_nested : ∃ p, Program.parse nestedParts = .ok p ∧
    (Node.allOf (Decl.nodes p.items)).length = 41 ∧
    (Decl.declarationsAll p.items).map (·.name.span) = [⟨16, 17⟩, ⟨54, 55⟩, ⟨74, 75⟩] ∧
    Decoration.marks (Decl.listsAll p.items) = [⟨0, 8⟩, ⟨20, 24⟩, ⟨58, 65⟩] ∧
    (∀ n ∈ Node.allOf (Decl.nodes p.items),
      n.span.start < n.span.stop ∧ n.span.stop ≤ nestedParts.utf8ByteSize) ∧
    (∀ n ∈ p.node.all, n.Orderly) ∧
    ((Decl.declarationsAll p.items).map (·.name.span)).Nodup ∧
    (Decoration.marks (Decl.listsAll p.items)).Nodup := by
  have hrun : ((Program.parse nestedParts).toOption.any fun p => decide (
      (Node.allOf (Decl.nodes p.items)).length = 41 ∧
      (Decl.declarationsAll p.items).map (·.name.span) = [⟨16, 17⟩, ⟨54, 55⟩, ⟨74, 75⟩] ∧
      Decoration.marks (Decl.listsAll p.items) = [⟨0, 8⟩, ⟨20, 24⟩, ⟨58, 65⟩])) = true := by
    decide +kernel
  obtain ⟨p, hprs, hfacts⟩ := Checker.exists_of_parse hrun
  obtain ⟨hlen, hnms, hmarks⟩ := of_decide_eq_true hfacts
  exact ⟨p, hprs, hlen, hnms, hmarks, Program.orderly_of_parse hprs⟩

end Provision
