/-
  THE GRAMMAR WITH ITS SCOPES. Each rule says which tokens a construct is made of, which names in it stand
  for variables, what is visible where they stand, and which locals are there afterwards.
-/
import LuaMachine.Proofs.Lexical.Scope
import LuaMachine.Proofs.Precedence.Reading

namespace LuaMachine.Lexical

/-! ## 1. Texts -/

structure Occurrence where
  name : Bytes
  around : List Scope

/-- Tokens in a row, the occurrences of names among them, and the functions written for them (those inside
    such a function are its own). -/
structure Passage where
  tokens : List Token
  names : List Occurrence
  protos : List Proto

namespace Passage

def empty : Passage := ⟨[], [], []⟩

def words (ts : List Token) : Passage := ⟨ts, [], []⟩

abbrev word (t : Token) : Passage := words [t]

def name (n : Bytes) (around : List Scope) : Passage := ⟨[.name n], [⟨n, around⟩], []⟩

instance : Append Passage := ⟨fun x y => ⟨x.tokens ++ y.tokens, x.names ++ y.names, x.protos ++ y.protos⟩⟩

variable (x y z : Passage)

@[simp] theorem tokens_words (ts : List Token) : (words ts).tokens = ts := rfl

@[simp] theorem names_words (ts : List Token) : (words ts).names = [] := rfl

@[simp] theorem protos_words (ts : List Token) : (words ts).protos = [] := rfl

@[simp] theorem tokens_append : (x ++ y).tokens = x.tokens ++ y.tokens := rfl

@[simp] theorem names_append : (x ++ y).names = x.names ++ y.names := rfl

@[simp] theorem protos_append : (x ++ y).protos = x.protos ++ y.protos := rfl

@[simp] theorem append_empty : x ++ empty = x := by
  show Passage.mk (x.tokens ++ []) (x.names ++ []) (x.protos ++ []) = x
  rw [List.append_nil, List.append_nil, List.append_nil]

theorem append_assoc : x ++ y ++ z = x ++ (y ++ z) := by
  show Passage.mk _ _ _ = Passage.mk _ _ _
  simp only [tokens_append, names_append, protos_append, List.append_assoc]

theorem word_append_name (n : Bytes) (around : List Scope) :
    word (.name n) ++ (⟨[], [⟨n, around⟩], []⟩ ++ x) = name n around ++ x := rfl

theorem words_append (ts us : List Token) : words ts ++ words us = words (ts ++ us) := rfl

end Passage

/-! ## 2. Names that are declared -/

inductive NameList : List Bytes → List Token → Prop where
  | one {n : Bytes} : NameList [n] [.name n]
  | more {n : Bytes} {ns : List Bytes} {ts : List Token} (rest : NameList ns ts) :
      NameList (n :: ns) (.name n :: .symbol .comma :: ts)

inductive Parameters : List Bytes → List Token → Prop where
  | dots : Parameters [] [.symbol .dots]
  | one {n : Bytes} : Parameters [n] [.name n]
  | more {n : Bytes} {ns : List Bytes} {ts : List Token} (rest : Parameters ns ts) :
      Parameters (n :: ns) (.name n :: .symbol .comma :: ts)

def self : List Bytes := [Bytes.ofString "self"]

inductive NamePath : List Bytes → List Token → Prop where
  | plain : NamePath [] []
  | method {n : Bytes} : NamePath self [.symbol .colon, .name n]
  | field {n : Bytes} {own : List Bytes} {ts : List Token} (rest : NamePath own ts) :
      NamePath own (.symbol .dot :: .name n :: ts)

def rangeState : List Bytes :=
  [Bytes.ofString "(for index)", Bytes.ofString "(for limit)", Bytes.ofString "(for step)"]

def iteratorState : List Bytes :=
  [Bytes.ofString "(for generator)", Bytes.ofString "(for state)", Bytes.ofString "(for control)"]

/-! ## 3. The rules -/

structure Context where
  upvalues : List UpvalueDesc
  around : List Scope

def Context.scopes (c : Context) (ns : List Bytes) : List Scope := ⟨ns, c.upvalues⟩ :: c.around

open Passage

mutual

/-- An expression where the locals `ns` are visible. If it ends with a name, a call or parentheses (`g`), then a
    parenthesis after it begins a call, so it is no whole expression. -/
inductive Expression : Context → List Bytes → Bool → Passage → Prop where
  | literal {c : Context} {ns : List Bytes} {t : Token} (ht : t.isLiteral = true) : Expression c ns false (word t)
  | table {c : Context} {ns : List Bytes} {x : Passage} (hx : Table c ns x) : Expression c ns false x
  | function {c : Context} {ns : List Bytes} {x : Passage} (hx : FunctionBody c ns [] x) :
      Expression c ns false (word (.keyword .function) ++ x)
  | suffixed {c : Context} {ns : List Bytes} {x : Passage} (hx : Suffixed c ns x) : Expression c ns true x
  | unary {c : Context} {ns : List Bytes} {g : Bool} {x : Passage} {t : Token} {op : UnOp}
      (ht : UnOp.ofToken? t = some op) (hx : Expression c ns g x) : Expression c ns g (word t ++ x)
  | binary {c : Context} {ns : List Bytes} {g g' : Bool} {x y : Passage} {t : Token} {op : BinOp} (hx : Expression c ns g x)
      (ht : BinOp.ofToken? t = some op) (hy : Expression c ns g' y) : Expression c ns g' (x ++ (word t ++ y))

/-- A name or an expression in parentheses, with fields, keys and calls. -/
inductive Suffixed : Context → List Bytes → Passage → Prop where
  | name {c : Context} {ns : List Bytes} (n : Bytes) : Suffixed c ns (name n (c.scopes ns))
  | parens {c : Context} {ns : List Bytes} {g : Bool} {x : Passage} (hx : Expression c ns g x) :
      Suffixed c ns (word (.symbol .lparen) ++ (x ++ word (.symbol .rparen)))
  | field {c : Context} {ns : List Bytes} {x : Passage} (hx : Suffixed c ns x) (n : Bytes) :
      Suffixed c ns (x ++ (word (.symbol .dot) ++ word (.name n)))
  | key {c : Context} {ns : List Bytes} {g : Bool} {x y : Passage} (hx : Suffixed c ns x) (hy : Expression c ns g y) :
      Suffixed c ns (x ++ (word (.symbol .lbracket) ++ (y ++ word (.symbol .rbracket))))
  | call {c : Context} {ns : List Bytes} {x y : Passage} (hx : Suffixed c ns x) (hy : Arguments c ns y) :
      Suffixed c ns (x ++ y)
  | method {c : Context} {ns : List Bytes} {x y : Passage} (hx : Suffixed c ns x) (n : Bytes) (hy : Arguments c ns y) :
      Suffixed c ns (x ++ (word (.symbol .colon) ++ (word (.name n) ++ y)))

inductive Arguments : Context → List Bytes → Passage → Prop where
  | none {c : Context} {ns : List Bytes} : Arguments c ns (word (.symbol .lparen) ++ word (.symbol .rparen))
  | list {c : Context} {ns : List Bytes} {g : Bool} {x : Passage} (hx : Expressions c ns g x) :
      Arguments c ns (word (.symbol .lparen) ++ (x ++ word (.symbol .rparen)))
  | table {c : Context} {ns : List Bytes} {x : Passage} (hx : Table c ns x) : Arguments c ns x
  | string {c : Context} {ns : List Bytes} (s : Bytes) : Arguments c ns (word (.str s))

inductive Expressions : Context → List Bytes → Bool → Passage → Prop where
  | one {c : Context} {ns : List Bytes} {g : Bool} {x : Passage} (hx : Expression c ns g x) : Expressions c ns g x
  | more {c : Context} {ns : List Bytes} {g g' : Bool} {x y : Passage} (hx : Expressions c ns g x)
      (hy : Expression c ns g' y) : Expressions c ns g' (x ++ (word (.symbol .comma) ++ y))

inductive Table : Context → List Bytes → Passage → Prop where
  | braces {c : Context} {ns : List Bytes} {x : Passage} (hx : Items c ns x) :
      Table c ns (word (.symbol .lbrace) ++ (x ++ word (.symbol .rbrace)))

inductive Items : Context → List Bytes → Passage → Prop where
  | none {c : Context} {ns : List Bytes} : Items c ns empty
  | one {c : Context} {ns : List Bytes} {x : Passage} (hx : Item c ns x) : Items c ns x
  | more {c : Context} {ns : List Bytes} {x y : Passage} {s : Symbol} (hx : Item c ns x) (hs : s = .comma ∨ s = .semi)
      (hy : Items c ns y) : Items c ns (x ++ (word (.symbol s) ++ y))

inductive Item : Context → List Bytes → Passage → Prop where
  | value {c : Context} {ns : List Bytes} {g : Bool} {x : Passage} (hx : Expression c ns g x) : Item c ns x
  | named {c : Context} {ns : List Bytes} {g : Bool} {x : Passage} (n : Bytes) (hx : Expression c ns g x) :
      Item c ns (word (.name n) ++ (word (.symbol .assign) ++ x))
  | keyed {c : Context} {ns : List Bytes} {g g' : Bool} {x y : Passage} (hx : Expression c ns g x) (hy : Expression c ns g' y) :
      Item c ns (word (.symbol .lbracket) ++ (x ++ (word (.symbol .rbracket) ++ (word (.symbol .assign) ++ y))))

/-- A function from its parameters on, with the parameters `own` that it has of itself. Its body sees what is
    visible where it stands. -/
inductive FunctionBody : Context → List Bytes → List Bytes → Passage → Prop where
  | body {c : Context} {ns own params last : List Bytes} {ts : List Token} {x : Passage} {p : Proto}
      (hp : (params = [] ∧ ts = []) ∨ Parameters params ts)
      (hx : Statements ⟨p.upvalues, c.scopes ns⟩ (own ++ params) x last) (hprotos : x.protos = p.protos) :
      FunctionBody c ns own
        ⟨.symbol .lparen :: (ts ++ .symbol .rparen :: (x.tokens ++ [.keyword .end])), x.names, [p]⟩

inductive Branch : Context → List Bytes → Passage → Prop where
  | when {c : Context} {ns last : List Bytes} {g : Bool} {x y : Passage} (hx : Expression c ns g x)
      (hy : Statements c ns y last) : Branch c ns (x ++ (word (.keyword .then) ++ y))

inductive Branches : Context → List Bytes → Passage → Prop where
  | none {c : Context} {ns : List Bytes} : Branches c ns empty
  | otherwise {c : Context} {ns last : List Bytes} {x : Passage} (hx : Statements c ns x last) :
      Branches c ns (word (.keyword .else) ++ x)
  | more {c : Context} {ns : List Bytes} {x y : Passage} (hx : Branch c ns x) (hy : Branches c ns y) :
      Branches c ns (word (.keyword .elseif) ++ (x ++ y))

inductive Targets : Context → List Bytes → Passage → Prop where
  | one {c : Context} {ns : List Bytes} {x : Passage} (hx : Suffixed c ns x) : Targets c ns x
  | more {c : Context} {ns : List Bytes} {x y : Passage} (hx : Targets c ns x) (hy : Suffixed c ns y) :
      Targets c ns (x ++ (word (.symbol .comma) ++ y))

/-- A statement where some locals are visible, and the locals that are visible after it. What it ends with may be such
    that a parenthesis after it begins a call (`g`). -/
inductive Statement : Context → List Bytes → Bool → Passage → List Bytes → Prop where
  | semi {c : Context} {ns : List Bytes} : Statement c ns false (word (.symbol .semi)) ns
  | block {c : Context} {ns last : List Bytes} {x : Passage} (hx : Statements c ns x last) :
      Statement c ns false (word (.keyword .do) ++ (x ++ word (.keyword .end))) ns
  | cond {c : Context} {ns : List Bytes} {x y : Passage} (hx : Branch c ns x) (hy : Branches c ns y) :
      Statement c ns false (word (.keyword .if) ++ (x ++ (y ++ word (.keyword .end)))) ns
  | loop {c : Context} {ns last : List Bytes} {g : Bool} {x y : Passage} (hx : Expression c ns g x)
      (hy : Statements c ns y last) :
      Statement c ns false (word (.keyword .while) ++ (x ++ (word (.keyword .do) ++ (y ++ word (.keyword .end))))) ns
  /-- The condition sees the locals of the body. -/
  | repetition {c : Context} {ns last : List Bytes} {g : Bool} {x y : Passage} (hx : Statements c ns x last)
      (hy : Expression c last g y) :
      Statement c ns g (word (.keyword .repeat) ++ (x ++ (word (.keyword .until) ++ y))) ns
  /-- The bounds do not see the variable. -/
  | range {c : Context} {ns last : List Bytes} {g g' : Bool} {x y z : Passage} (n : Bytes) (hx : Expression c ns g x)
      (hy : Expression c ns g' y) (hz : Statements c (ns ++ rangeState ++ [n]) z last) :
      Statement c ns false (word (.keyword .for) ++ (word (.name n) ++ (word (.symbol .assign) ++ (x ++
        (word (.symbol .comma) ++ (y ++ (word (.keyword .do) ++ (z ++ word (.keyword .end))))))))) ns
  | stepped {c : Context} {ns last : List Bytes} {g g' g'' : Bool} {x y s z : Passage} (n : Bytes)
      (hx : Expression c ns g x) (hy : Expression c ns g' y) (hs : Expression c ns g'' s)
      (hz : Statements c (ns ++ rangeState ++ [n]) z last) :
      Statement c ns false (word (.keyword .for) ++ (word (.name n) ++ (word (.symbol .assign) ++ (x ++
        (word (.symbol .comma) ++ (y ++ (word (.symbol .comma) ++ (s ++ (word (.keyword .do) ++ (z ++ word (.keyword .end))))))))))) ns
  | iterator {c : Context} {ns vars last : List Bytes} {g : Bool} {ts : List Token} {x y : Passage} (hn : NameList vars ts)
      (hx : Expressions c ns g x) (hy : Statements c (ns ++ iteratorState ++ vars) y last) :
      Statement c ns false (word (.keyword .for) ++ (words ts ++ (word (.keyword .in) ++ (x ++ (word (.keyword .do) ++
        (y ++ word (.keyword .end))))))) ns
  | function {c : Context} {ns own : List Bytes} {ts : List Token} {x : Passage} (n : Bytes) (hp : NamePath own ts)
      (hx : FunctionBody c ns own x) :
      Statement c ns false (word (.keyword .function) ++ (name n (c.scopes ns) ++ (words ts ++ x))) ns
  /-- A local function sees itself. -/
  | localFunction {c : Context} {ns : List Bytes} {x : Passage} (n : Bytes) (hx : FunctionBody c (ns ++ [n]) [] x) :
      Statement c ns false (word (.keyword .local) ++ (word (.keyword .function) ++ (word (.name n) ++ x))) (ns ++ [n])
  | locals {c : Context} {ns vars : List Bytes} {ts : List Token} (hn : NameList vars ts) :
      Statement c ns false (word (.keyword .local) ++ words ts) (ns ++ vars)
  /-- The values do not see the locals they are for. -/
  | assignedLocals {c : Context} {ns vars : List Bytes} {g : Bool} {ts : List Token} {x : Passage} (hn : NameList vars ts)
      (hx : Expressions c ns g x) :
      Statement c ns g (word (.keyword .local) ++ (words ts ++ (word (.symbol .assign) ++ x))) (ns ++ vars)
  | label {c : Context} {ns : List Bytes} (n : Bytes) :
      Statement c ns false (word (.symbol .doubleColon) ++ (word (.name n) ++ word (.symbol .doubleColon))) ns
  | goto {c : Context} {ns : List Bytes} (n : Bytes) : Statement c ns false (word (.keyword .goto) ++ word (.name n)) ns
  | break {c : Context} {ns : List Bytes} : Statement c ns false (word (.keyword .break)) ns
  | return {c : Context} {ns : List Bytes} : Statement c ns false (word (.keyword .return)) ns
  | returnValues {c : Context} {ns : List Bytes} {g : Bool} {x : Passage} (hx : Expressions c ns g x) :
      Statement c ns g (word (.keyword .return) ++ x) ns
  | call {c : Context} {ns : List Bytes} {x : Passage} (hx : Suffixed c ns x) : Statement c ns true x ns
  | assignment {c : Context} {ns : List Bytes} {g : Bool} {x y : Passage} (hx : Targets c ns x) (hy : Expressions c ns g y) :
      Statement c ns g (x ++ (word (.symbol .assign) ++ y)) ns

inductive Statements : Context → List Bytes → Passage → List Bytes → Prop where
  | nil {c : Context} {ns : List Bytes} : Statements c ns empty ns
  | cons {c : Context} {ns ns' last : List Bytes} {g : Bool} {x y : Passage} (hx : Statement c ns g x ns')
      (hg : g = true → y.tokens.head? ≠ some (.symbol .lparen)) (hy : Statements c ns' y last) :
      Statements c ns (x ++ y) last

end

/-- **A source** whose main function is `p`: around it is only the environment. -/
def Program (ts : List Token) (os : List Occurrence) (p : Proto) : Prop :=
  ∃ last, Statements ⟨p.upvalues, [.environment]⟩ [] ⟨ts, os, p.protos⟩ last

end LuaMachine.Lexical
