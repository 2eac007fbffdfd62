import ClosureEnv.Proofs.Lowered.Formed
import Mathlib.Data.List.Nodup

/-!
# Environments that code names

Lowered code names the types of the environments that it enters, makes closures with or refers to.
In well-formed code an environment that is named and chained below some environment is no accident:
the environment of the lambda is chained below that one too, or the code brings it into existence
itself (`Setting.LambdaOf.traced`).
-/

namespace ClosureEnv.Lowered

/-! ## Chains of environments -/

namespace Climbs

variable {envs : List EnvType} {a b c : String} {hops more : List String}

/-- What climbs on from the goal climbs from the start. -/
theorem append (h : Climbs envs a hops b) (h' : Climbs envs b more c) :
    Climbs envs a (hops ++ more) c := by
  induction h with
  | here => exact h'
  | up he hp _ ih => exact .up he hp (ih h')

/-- Every type on the way can be climbed to. -/
theorem exists_of_mem (h : Climbs envs a hops b) {n : String} (hn : n ∈ b :: hops) :
    ∃ front, Climbs envs a front n := by
  induction h with
  | here m =>
    obtain rfl := List.mem_singleton.mp hn
    exact ⟨[], .here n⟩
  | @up e p goal hops he hp h ih =>
    have hrest : n ∈ goal :: hops ∨ n = p := by
      simp only [List.mem_cons] at hn ⊢
      tauto
    rcases hrest with hmem | rfl
    · obtain ⟨front, hfront⟩ := ih hmem
      exact ⟨_, .up he hp hfront⟩
    · exact ⟨_, .up he hp (.here n)⟩

end Climbs

/-- A type of environment is another one or chained below it. -/
def Below (envs : List EnvType) (n root : String) : Prop :=
  ∃ hops, Climbs envs n hops root

namespace Below

variable {envs : List EnvType} {n root : String}

/-- Every type is below itself in this sense. -/
theorem refl (envs : List EnvType) (n : String) : Below envs n n :=
  ⟨[], .here n⟩

/-- What climbs to a type that is below another is so too. -/
theorem of_climbs {m : String} {hops : List String} (h : Climbs envs n hops m)
    (hm : Below envs m root) : Below envs n root := by
  obtain ⟨more, hmore⟩ := hm
  exact ⟨_, h.append hmore⟩

/-- A type that is below another is that one, or its parent is below it. -/
theorem cases_name (hnames : (envs.map EnvType.name).Nodup) {e : EnvType} (he : e ∈ envs)
    (h : Below envs e.name root) : e.name = root ∨ ∃ p, e.parent = some p ∧ Below envs p root := by
  obtain ⟨hops, h⟩ := h
  generalize hn : e.name = n at h
  cases h with
  | here => exact .inl rfl
  | @up f p _ hops hf hp h =>
    obtain rfl := List.inj_on_of_nodup_map hnames he hf hn
    exact .inr ⟨p, hp, hops, h⟩

end Below

/-! ## Uses -/

/-- A place in code where types of environments are named. -/
inductive EnvUse where
  /-- An environment of the type is entered. -/
  | enter (env : String)
  /-- A closure is made with an empty instance of the type. -/
  | make (env : String)
  /-- An environment is referred to. -/
  | refer (ref : EnvRef)
  deriving DecidableEq

/-- The types that are named there. -/
def EnvUse.names : EnvUse → List String
  | enter env | make env => [env]
  | refer ref => ref.env :: ref.hops

/-- How the environment that a closure is made with is named. -/
def EnvOperand.use : EnvOperand → EnvUse
  | ref env => .refer env
  | singleton env | fresh env => .make env

mutual

/-- The uses of environments in an expression. -/
def Expr.uses : Expr → List EnvUse
  | .lit _ | .uninit | .var .. | .global _ | .fn _ => []
  | .load place => [.refer place.env]
  | .makeClosure _ env => [env.use]
  | .unary _ operand => operand.uses
  | .binary _ lhs rhs => lhs.uses ++ rhs.uses
  | .call callee args => callee.uses ++ exprsUses args
  | .cond test yes no => test.uses ++ (yes.uses ++ optionUses no)
  | .block body => body.uses
  | .loop test body => test.uses ++ body.uses

/-- The uses in an optional expression. -/
def optionUses : Option Expr → List EnvUse
  | none => []
  | some e => e.uses

/-- The uses in expressions. -/
def exprsUses : List Expr → List EnvUse
  | [] => []
  | e :: es => e.uses ++ exprsUses es

/-- The uses in a block. -/
def Block.uses : Block → List EnvUse
  | .mk ss tail => stmtsUses ss ++ optionUses tail

/-- The uses in a statement. -/
def Stmt.uses : Stmt → List EnvUse
  | .enter _ env _ _ args parent => .enter env :: parent.toList.map .refer ++ exprsUses args
  | .store place value => .refer place.env :: value.uses
  | .bind _ _ value | .assign _ _ value | .assignGlobal _ value | .expr value => value.uses
  | .ret value => optionUses value

/-- The uses in statements. -/
def stmtsUses : List Stmt → List EnvUse
  | [] => []
  | s :: ss => s.uses ++ stmtsUses ss

end

/-- Code brings an environment below `root` into existence of itself: it enters `root`, or makes a
closure with an empty instance of a type below. -/
def Creates (envs : List EnvType) (root : String) (uses : List EnvUse) : Prop :=
  .enter root ∈ uses ∨ ∃ n, .make n ∈ uses ∧ Below envs n root

/-- More code creates more. -/
theorem Creates.mono {envs : List EnvType} {root : String} {xs ys : List EnvUse}
    (h : Creates envs root xs) (hsub : xs ⊆ ys) : Creates envs root ys :=
  h.imp (fun he => hsub he) fun ⟨n, hn, hb⟩ => ⟨n, hsub hn, hb⟩

/-- Nothing is used in the arguments of an entry. -/
theorem exprsUses_of_arguments {w : Setting} {params : List VarId} {fields : List EnvField}
    {args : List Expr} (h : List.Forall₂ (w.Argument params) fields args) :
    exprsUses args = [] := by
  induction h with
  | nil => rfl
  | cons hx _ ih =>
    rw [exprsUses, ih]
    cases hx <;> rfl

/-- The uses of a block with an entry in front. -/
theorem uses_withEntry (entry : Option Stmt) (b : Block) :
    (Scheme.withEntry entry b).uses = entry.toList.flatMap Stmt.uses ++ b.uses := by
  cases entry with
  | none => rfl
  | some e =>
    cases b
    simp [Scheme.withEntry, Block.cons, Block.uses, stmtsUses]

/-! ## Where they come from -/

namespace Setting

variable (w : Setting) (root : String)

/-- Code that the environments below `root` are at hand for: that of the lambda is one, or one has
been entered. -/
def Supplied (heads : Heads) : Prop :=
  (∃ start, w.param = some start ∧ Below w.envs start root) ∨
    ∃ x ∈ heads, Below w.envs x.2 root

/-- Where an environment below `root` is used, it is at hand or brought into existence. -/
def Traced (heads : Heads) (uses : List EnvUse) : Prop :=
  ∀ x ∈ uses, ∀ n ∈ x.names, Below w.envs n root →
    w.Supplied root heads ∨ Creates w.envs root uses

variable {w root} {heads within : Heads} {xs ys : List EnvUse}

namespace Traced

/-- No uses have to be traced. -/
theorem nil : w.Traced root heads [] :=
  nofun

/-- Uses after uses. -/
theorem append (h : w.Traced root heads xs) (h' : w.Traced root heads ys) :
    w.Traced root heads (xs ++ ys) := by
  intro x hx n hn hb
  rcases List.mem_append.mp hx with hx | hx
  · exact (h x hx n hn hb).imp_right fun hc => hc.mono (List.subset_append_left xs ys)
  · exact (h' x hx n hn hb).imp_right fun hc => hc.mono (List.subset_append_right xs ys)

/-- One use before others. -/
theorem cons {x : EnvUse} (h : w.Traced root heads [x]) (h' : w.Traced root heads xs) :
    w.Traced root heads (x :: xs) :=
  append h h'

end Traced

/-- The environments that a reference comes by are at hand. -/
theorem Leads.supplied {ref : EnvRef} (h : w.Leads heads ref) {n : String}
    (hn : n ∈ ref.env :: ref.hops) (hb : Below w.envs n root) : w.Supplied root heads := by
  cases h with
  | entered hmem =>
    obtain rfl := List.mem_singleton.mp hn
    exact .inr ⟨_, hmem, hb⟩
  | climbed hstart hclimbs =>
    obtain ⟨front, hfront⟩ := hclimbs.exists_of_mem hn
    exact .inl ⟨_, hstart, .of_climbs hfront hb⟩

/-- A reference that leads to its environment is traced. -/
theorem Leads.traced {ref : EnvRef} (h : w.Leads heads ref) : w.Traced root heads [.refer ref] := by
  intro x hx n hn hb
  obtain rfl := List.mem_singleton.mp hx
  exact .inl (h.supplied hn hb)

/-- The environment that a closure is made with is traced. -/
theorem Makes.traced {c : ClosureId} {name : String} {env : EnvOperand}
    (h : w.Makes heads c name env) : w.Traced root heads [env.use] := by
  cases env with
  | ref env => exact (h.leads env rfl).traced
  | singleton env | fresh env =>
    intro x hx n hn hb
    obtain rfl := List.mem_singleton.mp hx
    obtain rfl := List.mem_singleton.mp hn
    exact .inr (.inr ⟨n, List.mem_singleton.mpr rfl, hb⟩)

/-- An environment below `root` that is entered is `root`, or its parent is below `root`: so code is
traced with the entry in front. -/
theorem Enters.traced (hnames : (w.envs.map EnvType.name).Nodup) {s : ScopeId}
    {params : List VarId} {entry : Option Stmt} (h : w.Enters heads s params entry within)
    (hxs : w.Traced root within xs) :
    w.Traced root heads (entry.toList.flatMap Stmt.uses ++ xs) := by
  cases h with
  | none => exact hxs
  | @some e args parent he _ hargs hparent hleads =>
    have huses : (Option.some (Stmt.enter e.plan e.name (Name.envLocal e.plan) (allocationOf e.kind)
        args parent)).toList.flatMap Stmt.uses =
          EnvUse.enter e.name :: parent.toList.map .refer := by
      simp [Stmt.uses, exprsUses_of_arguments hargs]
    rw [huses]
    -- Below the type that is entered, it is supplied by what the parent is, or created right here.
    have hentered (hb : Below w.envs e.name root) : w.Supplied root heads ∨
        Creates w.envs root (EnvUse.enter e.name :: parent.toList.map .refer ++ xs) := by
      rcases hb.cases_name hnames he with rfl | ⟨p, hp, hb⟩
      · exact .inr (.inl List.mem_cons_self)
      · obtain ⟨ref, href, rfl⟩ := Option.map_eq_some_iff.mp (hparent.trans hp)
        exact .inl ((hleads ref href).supplied List.mem_cons_self hb)
    intro x hx n hn hb
    rcases List.mem_append.mp hx with hx | hx
    · rcases List.mem_cons.mp hx with rfl | hx
      · obtain rfl := List.mem_singleton.mp hn
        exact hentered hb
      · obtain ⟨ref, href, rfl⟩ := List.mem_map.mp hx
        exact .inl ((hleads ref (Option.mem_toList.mp href)).supplied hn hb)
    · rcases hxs x hx n hn hb with (hstart | ⟨y, hy, hb⟩) | hcreates
      · exact .inl (.inl hstart)
      · rcases List.mem_cons.mp hy with rfl | hy
        · exact hentered hb
        · exact .inl (.inr ⟨y, hy, hb⟩)
      · exact .inr (hcreates.mono (List.subset_append_right _ xs))

mutual

/-- Expressions are traced. -/
theorem ExprOf.traced (hnames : (w.envs.map EnvType.name).Nodup) {heads : Heads} {e : Bound.Expr}
    {x : Expr} (hx : w.ExprOf heads e x) : w.Traced root heads x.uses :=
  match hx with
  | .lit _ | .var _ _ | .global _ | .fn _ => .nil
  | .load hplace => hplace.leads.traced
  | .closure hmakes => hmakes.traced
  | .unary _ he => he.traced hnames
  | .binary _ hl hr => (hl.traced hnames).append (hr.traced hnames)
  | .call hf hes => (hf.traced hnames).append (hes.traced hnames)
  | .block hb => hb.traced hnames
  | .cond hc hy hn => (hc.traced hnames).append ((hy.traced hnames).append (hn.traced hnames))
  | .loop hc hb => (hc.traced hnames).append (hb.traced hnames)

/-- Optional expressions are traced. -/
theorem OptionOf.traced (hnames : (w.envs.map EnvType.name).Nodup) {heads : Heads}
    {e : Option Bound.Expr} {x : Option Expr} (hx : w.OptionOf heads e x) :
    w.Traced root heads (optionUses x) :=
  match hx with
  | .none => .nil
  | .some he => he.traced hnames

/-- Arguments are traced. -/
theorem ExprsOf.traced (hnames : (w.envs.map EnvType.name).Nodup) {heads : Heads}
    {es : List Bound.Expr} {xs : List Expr} (hx : w.ExprsOf heads es xs) :
    w.Traced root heads (exprsUses xs) :=
  match hx with
  | .nil => .nil
  | .cons he hes => (he.traced hnames).append (hes.traced hnames)

/-- Blocks are traced: what is entered at the head is at hand in the rest. -/
theorem BlockOf.traced (hnames : (w.envs.map EnvType.name).Nodup) {heads : Heads} {b : Bound.Block}
    {x : Block} (hx : w.BlockOf heads b x) : w.Traced root heads x.uses :=
  match hx with
  | .plain hss htail => (hss.traced hnames).append (htail.traced hnames)
  | .opened henters hss htail hy => by
    rw [hy, uses_withEntry]
    exact henters.traced hnames ((hss.traced hnames).append (htail.traced hnames))

/-- Statements are traced. -/
theorem StmtOf.traced (hnames : (w.envs.map EnvType.name).Nodup) {heads : Heads} {e : Bound.Stmt}
    {x : Stmt} (hx : w.StmtOf heads e x) : w.Traced root heads x.uses :=
  match hx with
  | .bindSlot hplace he | .assignSlot hplace he => hplace.leads.traced.cons (he.traced hnames)
  | .bind _ _ he | .assign _ _ he | .assignGlobal _ he | .expr he => he.traced hnames
  | .ret he => he.traced hnames

/-- Sequences of statements are traced. -/
theorem StmtsOf.traced (hnames : (w.envs.map EnvType.name).Nodup) {heads : Heads}
    {es : List Bound.Stmt} {xs : List Stmt} (hx : w.StmtsOf heads es xs) :
    w.Traced root heads (stmtsUses xs) :=
  match hx with
  | .nil => .nil
  | .cons he hes => (he.traced hnames).append (hes.traced hnames)

end

/-- The body of a closure is traced. -/
theorem BodyOf.traced (hnames : (w.envs.map EnvType.name).Nodup) {e : Bound.Expr} {x : Block}
    (hx : w.BodyOf heads e x) : w.Traced root heads x.uses := by
  cases hx with
  | block hb => exact hb.traced hnames
  | expr he => exact he.traced hnames

/-- Where a lambda uses an environment below `root`, its own environment is below `root`, or it
brings one into existence. -/
theorem LambdaOf.traced (hnames : (w.envs.map EnvType.name).Nodup) {k : Closure} {l : Lambda}
    (h : w.LambdaOf k l) (hparam : w.param = some l.env) {x : EnvUse} (hx : x ∈ l.body.uses)
    {n : String} (hn : n ∈ x.names) (hb : Below w.envs n root) :
    Below w.envs l.env root ∨ Creates w.envs root l.body.uses := by
  obtain ⟨entry, heads, y, henters, hy, hbody⟩ := h.body
  have htraced : w.Traced root [] l.body.uses := by
    rw [hbody, uses_withEntry]
    exact henters.traced hnames (hy.traced hnames)
  rcases htraced x hx n hn hb with (⟨start, hstart, hbelow⟩ | ⟨_, hmem, _⟩) | hcreates
  · cases hparam.symm.trans hstart
    exact .inl hbelow
  · cases hmem
  · exact .inr hcreates

end Setting

end ClosureEnv.Lowered
