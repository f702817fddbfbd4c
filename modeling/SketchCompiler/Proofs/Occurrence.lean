/-
The expressions and statements of a program, each with the variables in
view where it stands.

# Declarations in view

A declaration is in view from its end on, for two readers.  By the rules
of the language a variable of a loop header is in scope in that loop
only, and the value of a value block is inside the block.  The analysis
keeps the variable of a loop header until the block around the loop ends,
and closes a value block before it looks at the value.  So a declaration
carries who sees it (`Binding.lexical`, `Binding.analysed`).

Functions, tasks and structs are not in a view: none of them is const,
and a variable at the top cannot have the name of one.
-/
import SketchCompiler.Proofs.Proper

namespace SketchCompiler

open List

-- ==== declarations in view

/-- The integer that a variable starts with, if it is written as one. -/
def initialInt : Option Expr → Option Int
  | some (.literal _ value "int") => value.toInt?
  | _ => none

/-- A declared variable or parameter, the integer it starts with if that
is written down, and who sees it. -/
structure Binding where
  name : String
  isConst : Bool
  initial : Option Int := none
  lexical : Bool := true
  analysed : Bool := true
  deriving DecidableEq, Repr

/-- The declaration, seen by the analysis only. -/
def Binding.onlyAnalysed (b : Binding) : Binding :=
  { b with lexical := false }

/-- The declaration, seen by the rules of the language only. -/
def Binding.onlyLexical (b : Binding) : Binding :=
  { b with analysed := false }

/-- The declarations in view, the innermost first. -/
abbrev View := List Binding

/-- The declaration that a name refers to by the rules of the language. -/
def View.lexical? (view : View) (name : String) : Option Binding :=
  view.find? fun b => b.lexical && b.name == name

/-- The declaration that a name refers to for the analysis. -/
def View.analysed? (view : View) (name : String) : Option Binding :=
  view.find? fun b => b.analysed && b.name == name

/-- What a statement leaves in view for those behind it in its block. -/
def Stmt.bindings : Stmt → View
  | .varDecl _ name _ value _ isConst _ => [{ name, isConst, initial := initialInt value }]
  | .forLoop _ (some init) _ _ _ => init.bindings.map Binding.onlyAnalysed
  | _ => []

/-- What the statements of a block leave in view at its end. -/
def bindingsOf : List Stmt → View
  | [] => []
  | s :: rest => bindingsOf rest ++ s.bindings

/-- The parameters of a function. -/
def paramBindings (params : List Param) : View :=
  (params.map fun p => { name := p.name, isConst := false }).reverse

/-- What is in view at the value of a value block. -/
def Block.tailView (view : View) (block : Block) : View :=
  ((bindingsOf block.statements).filter (·.lexical)).map Binding.onlyLexical ++ view

-- ==== nodes

/-- An expression or statement and the declarations in view there. -/
inductive Node where
  | expr (view : View) (e : Expr)
  | stmt (view : View) (s : Stmt)

/-- The declarations in view at a node. -/
def Node.view : Node → View
  | expr view _ | stmt view _ => view

mutual

/-- An expression and all inside it. -/
def Expr.nodes (view : View) : Expr → List Node
  | e@(.literal ..) => [.expr view e]
  | e@(.ident ..) => [.expr view e]
  | e@(.unary _ _ operand) => .expr view e :: operand.nodes view
  | e@(.postfixed _ operand _) => .expr view e :: operand.nodes view
  | e@(.binary _ left _ right) => .expr view e :: (left.nodes view ++ right.nodes view)
  | e@(.bitwise _ left _ right) => .expr view e :: (left.nodes view ++ right.nodes view)
  | e@(.assign _ target _ value) => .expr view e :: (target.nodes view ++ value.nodes view)
  | e@(.cast _ operand _) => .expr view e :: operand.nodes view
  | e@(.call _ callee args) => .expr view e :: (callee.nodes view ++ exprsNodes view args)
  | e@(.structInit _ _ fields) => .expr view e :: fieldsNodes view fields
  | e@(.member _ object _) => .expr view e :: object.nodes view
  | e@(.ifElse _ condition thenBlock thenValue elseBlock elseValue) =>
    .expr view e :: (condition.nodes view ++ (thenBlock.nodes view ++ (elseBlock.nodes view
      ++ (thenValue.nodes (thenBlock.tailView view)
        ++ elseValue.nodes (elseBlock.tailView view)))))

def exprNodes? (view : View) : Option Expr → List Node
  | none => []
  | some e => e.nodes view

def exprsNodes (view : View) : List Expr → List Node
  | [] => []
  | e :: es => e.nodes view ++ exprsNodes view es

def fieldsNodes (view : View) : List FieldInit → List Node
  | [] => []
  | .mk _ value :: fields => value.nodes view ++ fieldsNodes view fields

def Block.nodes (view : View) : Block → List Node
  | .mk _ statements => stmtsNodes view statements

def blockNodes? (view : View) : Option Block → List Node
  | none => []
  | some body => body.nodes view

def stmtsNodes (view : View) : List Stmt → List Node
  | [] => []
  | s :: rest => s.nodes view ++ stmtsNodes (s.bindings ++ view) rest

def clauseNodes? (view : View) : Option Stmt → List Node
  | none => []
  | some s => s.nodes view

def armsNodes (view : View) : List MatchArm → List Node
  | [] => []
  | .mk _ pattern _ body :: arms =>
    exprNodes? view pattern ++ (body.nodes view ++ armsNodes view arms)

def decoratorsNodes (view : View) : List Decorator → List Node
  | [] => []
  | .mk _ _ value :: rest => value.nodes view ++ decoratorsNodes view rest

def devicesNodes (view : View) : List Device → List Node
  | [] => []
  | .mk _ _ address :: rest => address.nodes view ++ devicesNodes view rest

/-- A statement and all inside it. -/
def Stmt.nodes (view : View) : Stmt → List Node
  | s@(.importDecl ..) => [.stmt view s]
  | s@(.structDecl ..) => [.stmt view s]
  | s@(.taskDecl _ _ decorators body) =>
    .stmt view s :: (decoratorsNodes view decorators ++ blockNodes? view body)
  | s@(.busDecl _ _ _ sda scl freq devices) =>
    .stmt view s :: (sda.nodes view ++ (scl.nodes view ++ (freq.nodes view
      ++ devicesNodes view devices)))
  | s@(.functionDecl _ _ params _ body) =>
    .stmt view s :: body.nodes (paramBindings params ++ view)
  | s@(.loopDecl _ body) => .stmt view s :: body.nodes view
  | s@(.varDecl _ _ _ initializer _ _ _) => .stmt view s :: exprNodes? view initializer
  | s@(.block body) => .stmt view s :: body.nodes view
  | s@(.ifElse _ condition thenBranch elseBranch) =>
    .stmt view s :: (condition.nodes view ++ (thenBranch.nodes view
      ++ blockNodes? view elseBranch))
  | s@(.whileLoop _ condition body) => .stmt view s :: (condition.nodes view ++ body.nodes view)
  | s@(.forLoop _ init condition update body) =>
    let inside := (init.map Stmt.bindings).getD [] ++ view
    .stmt view s :: (clauseNodes? view init ++ (exprNodes? inside condition
      ++ (exprNodes? inside update ++ body.nodes inside)))
  | s@(.returnValue _ value) => .stmt view s :: exprNodes? view value
  | s@(.expr _ e) => .stmt view s :: e.nodes view
  | s@(.matchValue _ value arms) => .stmt view s :: (value.nodes view ++ armsNodes view arms)
  | s@(.spawn ..) => [.stmt view s]
  | s@(.gpioMode _ pin _) => .stmt view s :: pin.nodes view
  | s@(.digitalWrite _ pin value) => .stmt view s :: (pin.nodes view ++ value.nodes view)
  | s@(.pwmWrite _ pin duty channel) =>
    .stmt view s :: (pin.nodes view ++ (duty.nodes view ++ exprNodes? view channel))
  | s@(.rgbWrite _ pin red green blue) =>
    .stmt view s :: (pin.nodes view ++ (red.nodes view ++ (green.nodes view ++ blue.nodes view)))
  | s@(.delay _ time) => .stmt view s :: time.nodes view
  | s@(.wifiConnect _ ssid password) => .stmt view s :: (ssid.nodes view ++ password.nodes view)
  | s@(.raw ..) => [.stmt view s]

end

/-- The expressions and statements of a program. -/
def Program.nodes (p : Program) : List Node :=
  stmtsNodes [] p.declarations

-- ==== proper nodes

/-- A node that a reading can yield; only `analogRead` is a callee that is
no expression by itself. -/
def Node.ProperFor (lits : Literals) : Node → Prop
  | .expr _ e => e.Proper lits ∨ e.isAnalogRead = true
  | .stmt _ s => s.Proper lits

/-- A node that a reading can yield, whatever its literals. -/
abbrev Node.Proper (n : Node) : Prop :=
  n.ProperFor True

variable {lits : Literals}

theorem callee_nodes {view : View} {callee : Expr} (h : callee.isAnalogRead = true) :
    ∀ n ∈ callee.nodes view, n.ProperFor lits := by
  cases callee with
  | ident span name => exact forall_mem_singleton.mpr (.inr h)
  | _ => cases h

mutual

theorem Expr.Proper.nodes (view : View) : ∀ {e : Expr}, e.Proper lits →
    ∀ n ∈ e.nodes view, n.ProperFor lits
  | .literal _ _ _, h | .ident _ _, h => forall_mem_singleton.mpr (.inl h)
  | .unary _ _ _, h => forall_mem_cons.mpr ⟨.inl h, h.2.nodes view⟩
  | .postfixed _ _ _, h | .cast _ _ _, h | .member _ _ _, h =>
    forall_mem_cons.mpr ⟨.inl h, h.1.nodes view⟩
  | .binary _ _ _ _, h | .bitwise _ _ _ _, h => forall_mem_cons.mpr
    ⟨.inl h, forall_mem_append.mpr ⟨h.1.nodes view, h.2.2.nodes view⟩⟩
  | .assign _ _ _ _, h => forall_mem_cons.mpr
    ⟨.inl h, forall_mem_append.mpr ⟨h.1.nodes view, h.2.2.2.nodes view⟩⟩
  | .call _ _ _, h => forall_mem_cons.mpr ⟨.inl h, forall_mem_append.mpr
    ⟨h.1.elim (fun h => callee_nodes h.1) (Expr.Proper.nodes view), exprsProper.nodes view h.2⟩⟩
  | .structInit _ _ _, h => forall_mem_cons.mpr ⟨.inl h, fieldsProper.nodes view h.2.2⟩
  | .ifElse _ _ thenBlock _ elseBlock _, h => forall_mem_cons.mpr ⟨.inl h,
    forall_mem_append.mpr ⟨h.1.nodes view, forall_mem_append.mpr ⟨h.2.1.nodes view,
      forall_mem_append.mpr ⟨h.2.2.2.2.1.nodes view, forall_mem_append.mpr
        ⟨h.2.2.2.1.nodes (thenBlock.tailView view),
          h.2.2.2.2.2.2.nodes (elseBlock.tailView view)⟩⟩⟩⟩⟩

theorem exprProper?.nodes (view : View) : ∀ {e? : Option Expr}, exprProper? lits e? →
    ∀ n ∈ exprNodes? view e?, n.ProperFor lits
  | none, _ => forall_mem_nil _
  | some _, h => Expr.Proper.nodes view h

theorem exprsProper.nodes (view : View) : ∀ {es : List Expr}, exprsProper lits es →
    ∀ n ∈ exprsNodes view es, n.ProperFor lits
  | [], _ => forall_mem_nil _
  | _ :: _, h => forall_mem_append.mpr ⟨h.1.nodes view, exprsProper.nodes view h.2⟩

theorem fieldsProper.nodes (view : View) : ∀ {fs : List FieldInit}, fieldsProper lits fs →
    ∀ n ∈ fieldsNodes view fs, n.ProperFor lits
  | [], _ => forall_mem_nil _
  | .mk _ _ :: _, h => forall_mem_append.mpr ⟨h.1.2.nodes view, fieldsProper.nodes view h.2⟩

theorem Block.Proper.nodes (view : View) : ∀ {b : Block}, b.Proper lits →
    ∀ n ∈ b.nodes view, n.ProperFor lits
  | .mk _ _, h => stmtsProper.nodes view h

theorem blockProper?.nodes (view : View) : ∀ {b? : Option Block}, blockProper? lits b? →
    ∀ n ∈ blockNodes? view b?, n.ProperFor lits
  | none, _ => forall_mem_nil _
  | some _, h => Block.Proper.nodes view h

theorem stmtsProper.nodes (view : View) : ∀ {ss : List Stmt}, stmtsProper lits ss →
    ∀ n ∈ stmtsNodes view ss, n.ProperFor lits
  | [], _ => forall_mem_nil _
  | s :: _, h => forall_mem_append.mpr
    ⟨h.1.nodes view, stmtsProper.nodes (s.bindings ++ view) h.2⟩

theorem clauseProper?.nodes (view : View) : ∀ {s? : Option Stmt}, clauseProper? lits s? →
    ∀ n ∈ clauseNodes? view s?, n.ProperFor lits
  | none, _ => forall_mem_nil _
  | some _, h => h.1.nodes view

theorem armsProper.nodes (view : View) : ∀ {arms : List MatchArm}, armsProper lits arms →
    ∀ n ∈ armsNodes view arms, n.ProperFor lits
  | [], _ => forall_mem_nil _
  | .mk _ _ _ _ :: _, h => forall_mem_append.mpr ⟨exprProper?.nodes view h.1.1,
    forall_mem_append.mpr ⟨h.1.2.2.nodes view, armsProper.nodes view h.2⟩⟩

theorem decoratorsProper.nodes (view : View) : ∀ {ds : List Decorator},
    decoratorsProper lits ds → ∀ n ∈ decoratorsNodes view ds, n.ProperFor lits
  | [], _ => forall_mem_nil _
  | .mk _ _ _ :: _, h => forall_mem_append.mpr
    ⟨h.1.2.nodes view, decoratorsProper.nodes view h.2⟩

theorem devicesProper.nodes (view : View) : ∀ {ds : List Device}, devicesProper lits ds →
    ∀ n ∈ devicesNodes view ds, n.ProperFor lits
  | [], _ => forall_mem_nil _
  | .mk _ _ _ :: _, h => forall_mem_append.mpr
    ⟨h.1.2.nodes view, devicesProper.nodes view h.2⟩

theorem Stmt.Proper.nodes (view : View) : ∀ {s : Stmt}, s.Proper lits →
    ∀ n ∈ s.nodes view, n.ProperFor lits
  | .importDecl _ _, h | .structDecl _ _ _, h | .spawn _ _, h | .raw _ _, h =>
    forall_mem_singleton.mpr h
  | .taskDecl _ _ _ _, h => forall_mem_cons.mpr ⟨h, forall_mem_append.mpr
    ⟨decoratorsProper.nodes view h.2.1, blockProper?.nodes view h.2.2.2⟩⟩
  | .busDecl _ _ _ _ _ _ _, h => forall_mem_cons.mpr ⟨h, forall_mem_append.mpr
    ⟨h.2.2.1.nodes view, forall_mem_append.mpr ⟨h.2.2.2.1.nodes view,
      forall_mem_append.mpr
        ⟨h.2.2.2.2.1.nodes view, devicesProper.nodes view h.2.2.2.2.2⟩⟩⟩⟩
  | .functionDecl _ _ params _ _, h => forall_mem_cons.mpr
    ⟨h, h.2.2.2.nodes (paramBindings params ++ view)⟩
  | .loopDecl _ _, h | .block _, h => forall_mem_cons.mpr ⟨h, Block.Proper.nodes view h⟩
  | .varDecl _ _ _ _ _ _ _, h => forall_mem_cons.mpr ⟨h, exprProper?.nodes view h.2.2.1⟩
  | .ifElse _ _ _ _, h => forall_mem_cons.mpr ⟨h, forall_mem_append.mpr
    ⟨h.1.nodes view, forall_mem_append.mpr
      ⟨h.2.1.nodes view, blockProper?.nodes view h.2.2⟩⟩⟩
  | .whileLoop _ _ _, h | .digitalWrite _ _ _, h | .wifiConnect _ _ _, h => forall_mem_cons.mpr
    ⟨h, forall_mem_append.mpr ⟨h.1.nodes view, h.2.nodes view⟩⟩
  | .forLoop _ init _ _ _, h => forall_mem_cons.mpr ⟨h, forall_mem_append.mpr
    ⟨clauseProper?.nodes view h.1, forall_mem_append.mpr
      ⟨exprProper?.nodes ((init.map Stmt.bindings).getD [] ++ view) h.2.1,
        forall_mem_append.mpr
          ⟨exprProper?.nodes ((init.map Stmt.bindings).getD [] ++ view) h.2.2.1,
            h.2.2.2.nodes ((init.map Stmt.bindings).getD [] ++ view)⟩⟩⟩⟩
  | .returnValue _ _, h => forall_mem_cons.mpr ⟨h, exprProper?.nodes view h⟩
  | .expr _ _, h | .delay _ _, h => forall_mem_cons.mpr ⟨h, Expr.Proper.nodes view h⟩
  | .matchValue _ _ _, h => forall_mem_cons.mpr
    ⟨h, forall_mem_append.mpr ⟨h.1.nodes view, armsProper.nodes view h.2⟩⟩
  | .gpioMode _ _ _, h => forall_mem_cons.mpr ⟨h, h.1.nodes view⟩
  | .pwmWrite _ _ _ _, h => forall_mem_cons.mpr ⟨h, forall_mem_append.mpr
    ⟨h.1.nodes view, forall_mem_append.mpr
      ⟨h.2.1.nodes view, exprProper?.nodes view h.2.2⟩⟩⟩
  | .rgbWrite _ _ _ _ _, h => forall_mem_cons.mpr ⟨h, forall_mem_append.mpr
    ⟨h.1.nodes view, forall_mem_append.mpr ⟨h.2.1.nodes view,
      forall_mem_append.mpr ⟨h.2.2.1.nodes view, h.2.2.2.nodes view⟩⟩⟩⟩

end

theorem Program.Proper.nodes {p : Program} (h : p.Proper lits) : ∀ n ∈ p.nodes, n.ProperFor lits :=
  stmtsProper.nodes [] h

-- ==== nodes inside nodes

/-- The node and all inside it. -/
def Node.nodes : Node → List Node
  | .expr view e => e.nodes view
  | .stmt view s => s.nodes view

/-- With every node the list has all that is inside it. -/
def NodesClosed (nodes : List Node) : Prop :=
  ∀ n ∈ nodes, n.nodes ⊆ nodes

theorem NodesClosed.nil : NodesClosed [] := forall_mem_nil _

theorem NodesClosed.cons (h : n.nodes = n :: rest) (hrest : NodesClosed rest) :
    NodesClosed (n :: rest) :=
  forall_mem_cons.mpr ⟨h ▸ List.Subset.refl _,
    fun m hm => List.Subset.trans (hrest m hm) (subset_cons_self n rest)⟩

theorem NodesClosed.append (ha : NodesClosed as) (hb : NodesClosed bs) : NodesClosed (as ++ bs) :=
  forall_mem_append.mpr
    ⟨fun n hn => List.Subset.trans (ha n hn) (subset_append_left as bs),
      fun n hn => List.Subset.trans (hb n hn) (subset_append_right as bs)⟩

mutual

theorem Expr.nodes_closed (view : View) : ∀ e : Expr, NodesClosed (e.nodes view)
  | .literal _ _ _ => .cons rfl .nil
  | .ident _ _ => .cons rfl .nil
  | .unary _ _ e | .postfixed _ e _ | .cast _ e _ | .member _ e _ =>
    .cons rfl (e.nodes_closed view)
  | .binary _ l _ r | .bitwise _ l _ r | .assign _ l _ r =>
    .cons rfl ((l.nodes_closed view).append (r.nodes_closed view))
  | .call _ f args => .cons rfl ((f.nodes_closed view).append (exprsNodes_closed view args))
  | .structInit _ _ fields => .cons rfl (fieldsNodes_closed view fields)
  | .ifElse _ c thenBlock t elseBlock e => .cons rfl ((c.nodes_closed view).append
    ((thenBlock.nodes_closed view).append ((elseBlock.nodes_closed view).append
      ((t.nodes_closed (thenBlock.tailView view)).append
        (e.nodes_closed (elseBlock.tailView view))))))

theorem exprNodes?_closed (view : View) : ∀ e? : Option Expr, NodesClosed (exprNodes? view e?)
  | none => .nil
  | some e => e.nodes_closed view

theorem exprsNodes_closed (view : View) : ∀ es : List Expr, NodesClosed (exprsNodes view es)
  | [] => .nil
  | e :: es => (e.nodes_closed view).append (exprsNodes_closed view es)

theorem fieldsNodes_closed (view : View) :
    ∀ fields : List FieldInit, NodesClosed (fieldsNodes view fields)
  | [] => .nil
  | .mk _ value :: fields => (value.nodes_closed view).append (fieldsNodes_closed view fields)

theorem Block.nodes_closed (view : View) : ∀ b : Block, NodesClosed (b.nodes view)
  | .mk _ statements => stmtsNodes_closed view statements

theorem blockNodes?_closed (view : View) : ∀ b? : Option Block, NodesClosed (blockNodes? view b?)
  | none => .nil
  | some b => b.nodes_closed view

theorem stmtsNodes_closed (view : View) : ∀ ss : List Stmt, NodesClosed (stmtsNodes view ss)
  | [] => .nil
  | s :: rest => (s.nodes_closed view).append (stmtsNodes_closed (s.bindings ++ view) rest)

theorem clauseNodes?_closed (view : View) : ∀ s? : Option Stmt, NodesClosed (clauseNodes? view s?)
  | none => .nil
  | some s => s.nodes_closed view

theorem armsNodes_closed (view : View) : ∀ arms : List MatchArm, NodesClosed (armsNodes view arms)
  | [] => .nil
  | .mk _ pattern _ body :: arms => (exprNodes?_closed view pattern).append
    ((body.nodes_closed view).append (armsNodes_closed view arms))

theorem decoratorsNodes_closed (view : View) :
    ∀ ds : List Decorator, NodesClosed (decoratorsNodes view ds)
  | [] => .nil
  | .mk _ _ value :: ds => (value.nodes_closed view).append (decoratorsNodes_closed view ds)

theorem devicesNodes_closed (view : View) : ∀ ds : List Device, NodesClosed (devicesNodes view ds)
  | [] => .nil
  | .mk _ _ address :: ds => (address.nodes_closed view).append (devicesNodes_closed view ds)

theorem Stmt.nodes_closed (view : View) : ∀ s : Stmt, NodesClosed (s.nodes view)
  | .importDecl _ _ => .cons rfl .nil
  | .structDecl _ _ _ => .cons rfl .nil
  | .taskDecl _ _ ds body =>
    .cons rfl ((decoratorsNodes_closed view ds).append (blockNodes?_closed view body))
  | .busDecl _ _ _ sda scl freq devices => .cons rfl ((sda.nodes_closed view).append
    ((scl.nodes_closed view).append ((freq.nodes_closed view).append
      (devicesNodes_closed view devices))))
  | .functionDecl _ _ params _ body => .cons rfl (body.nodes_closed (paramBindings params ++ view))
  | .loopDecl _ x | .block x | .expr _ x | .gpioMode _ x _ | .delay _ x =>
    .cons rfl (x.nodes_closed view)
  | .varDecl _ _ _ e? _ _ _ | .returnValue _ e? => .cons rfl (exprNodes?_closed view e?)
  | .ifElse _ c t e? => .cons rfl ((c.nodes_closed view).append
    ((t.nodes_closed view).append (blockNodes?_closed view e?)))
  | .whileLoop _ x y | .digitalWrite _ x y | .wifiConnect _ x y =>
    .cons rfl ((x.nodes_closed view).append (y.nodes_closed view))
  | .forLoop _ init c? u? body => .cons rfl ((clauseNodes?_closed view init).append
    ((exprNodes?_closed _ c?).append ((exprNodes?_closed _ u?).append (body.nodes_closed _))))
  | .matchValue _ e arms => .cons rfl ((e.nodes_closed view).append (armsNodes_closed view arms))
  | .spawn _ _ => .cons rfl .nil
  | .pwmWrite _ pin duty channel => .cons rfl ((pin.nodes_closed view).append
    ((duty.nodes_closed view).append (exprNodes?_closed view channel)))
  | .rgbWrite _ pin r g b => .cons rfl ((pin.nodes_closed view).append
    ((r.nodes_closed view).append ((g.nodes_closed view).append (b.nodes_closed view))))
  | .raw _ _ => .cons rfl .nil

end

/-- With a node, a program has all the nodes below it. -/
theorem Program.nodes_closed (p : Program) : NodesClosed p.nodes :=
  stmtsNodes_closed [] p.declarations

end SketchCompiler
