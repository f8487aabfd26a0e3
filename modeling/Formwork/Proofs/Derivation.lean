import Formwork.Proofs.Piece
import Formwork.Tree.Basic

/-!
# The grammar as derivations

`Derives n tokens tree` says that the grammar derives a sequence of tokens from a nonterminal, and
that `tree` is the tree of the derivation. Nothing here knows in which order alternatives are tried.
The spans of a tree are not part of its derivation.

`Derives.contents_eq`: a tree has the names, types, numbers, truth values and operators of its
tokens, each once and in the same order.
-/

namespace Formwork

/-! ## Nonterminals -/

/-- The kinds of expressions, from the loosest to the tightest. -/
inductive Level where
  | expression | conditional | lambda | update | target | boolean | conjunction | negation
  | comparison | sum | product | power | unary | suffixed | atom | collection
deriving DecidableEq, Repr

namespace Level

/-- The kinds of expressions that an expression can be without a token of its own. -/
def alternatives : Level → List Level
  | .expression => [.conditional, .lambda, .update, .boolean]
  | .boolean => [.conjunction]
  | .conjunction => [.negation]
  | .negation => [.comparison]
  | .comparison => [.sum]
  | .sum => [.product]
  | .product => [.power]
  | .power => [.unary]
  | .unary => [.suffixed]
  | .suffixed => [.atom]
  | .atom => [.collection, .conditional, .lambda]
  | _ => []

/-- The operators of a kind of expressions. -/
def operators : Level → List (Token × BinaryOp)
  | .boolean => [(.keyword .or, .or), (.keyword .xor, .xor)]
  | .conjunction => [(.keyword .and, .and)]
  | .comparison =>
      [(.punct .eq, .eq), (.punct .notEq, .notEq), (.punct .lessEq, .lessEq),
        (.punct .less, .less), (.punct .greaterEq, .greaterEq), (.punct .greater, .greater)]
  | .sum => [(.punct .plus, .add), (.punct .minus, .sub)]
  | .product => [(.punct .star, .mul), (.punct .slash, .div), (.punct .percent, .mod)]
  | .power => [(.punct .caret, .pow)]
  | _ => []

/-- The operands to the left and to the right: all operators but comparisons group to the left. -/
def sides : Level → Level × Level
  | .boolean => (.boolean, .conjunction)
  | .conjunction => (.conjunction, .negation)
  | .comparison => (.sum, .sum)
  | .sum => (.sum, .product)
  | .product => (.product, .power)
  | .power => (.power, .unary)
  | level => (level, level)

end Level

/-- What the grammar derives sequences of tokens from. -/
inductive Nonterminal where
  | program | globals | functions | varDef | funDef | params | paramList | param | body | type
  | block | statements | sequence | statement | sentence | expr (level : Level)
  | args | exprList | entries

/-- The trees of a nonterminal. -/
abbrev Nonterminal.Tree : Nonterminal → Type
  | .program => Program
  | .globals => List VarDef
  | .functions => List FunctionDef
  | .varDef => VarDef
  | .funDef => FunctionDef
  | .params | .paramList => List Param
  | .param => Param
  | .body | .block | .statements => Block
  | .type => TypeRef
  | .sequence => List Stmt
  | .statement | .sentence => Stmt
  | .expr _ => Expr
  | .args | .exprList => List Expr
  | .entries => List (Expr × Expr)

/-! ## Derivations -/

/-- The grammar derives tokens from a nonterminal, with a tree. -/
inductive Derives : (n : Nonterminal) → List Token → n.Tree → Prop where
  -- Programs.
  | program {ts us : List Token} {globals : List VarDef} {functions : List FunctionDef}
      {span : Span} :
      Derives .globals ts globals → Derives .functions us functions →
      Derives .program (ts ++ us) ⟨globals, functions, span⟩
  | noGlobals : Derives .globals [] []
  | globals {ts us : List Token} {d : VarDef} {ds : List VarDef} :
      Derives .varDef ts d → Derives .globals us ds → Derives .globals (ts ++ us) (d :: ds)
  | noFunctions : Derives .functions [] []
  | functions {ts us : List Token} {f : FunctionDef} {fs : List FunctionDef} :
      Derives .funDef ts f → Derives .functions us fs → Derives .functions (ts ++ us) (f :: fs)
  -- Definitions.
  | constant {ts us : List Token} {t : TypeRef} {name : String} {value : Expr}
      {place span : Span} :
      Derives .type ts t → Derives (.expr .expression) us value →
      Derives .varDef (.keyword .const :: (ts ++ .identifier name :: .punct .assign :: us))
        ⟨t, ⟨name, place⟩, value, true, span⟩
  | variable {ts us : List Token} {t : TypeRef} {name : String} {value : Expr}
      {place span : Span} :
      Derives .type ts t → Derives (.expr .expression) us value →
      Derives .varDef (ts ++ .identifier name :: .punct .assign :: us)
        ⟨t, ⟨name, place⟩, value, false, span⟩
  | funDef {ts us vs : List Token} {t : TypeRef} {name : String} {params : List Param}
      {body : Block} {place span : Span} :
      Derives .type ts t → Derives .params us params → Derives .body vs body →
      Derives .funDef (.keyword .fun_ :: (ts ++ .identifier name :: (us ++ vs)))
        ⟨some ⟨name, place⟩, t, params, body, span⟩
  | funType {span : Span} : Derives .type [.keyword .fun_] ⟨"fun", span⟩
  | namedType {name : String} {span : Span} : Derives .type [.identifier name] ⟨name, span⟩
  | noParams : Derives .params [.punct .lparen, .punct .rparen] []
  | params {ts : List Token} {ps : List Param} :
      Derives .paramList ts ps →
      Derives .params (.punct .lparen :: (ts ++ [.punct .rparen])) ps
  | oneParam {ts : List Token} {p : Param} : Derives .param ts p → Derives .paramList ts [p]
  | moreParams {ts us : List Token} {ps : List Param} {p : Param} :
      Derives .paramList ts ps → Derives .param us p →
      Derives .paramList (ts ++ .punct .comma :: us) (ps ++ [p])
  | param {ts : List Token} {t : TypeRef} {name : String} {place span : Span} :
      Derives .type ts t →
      Derives .param (ts ++ [.identifier name]) ⟨t, ⟨name, place⟩, none, span⟩
  | defaultParam {ts us : List Token} {t : TypeRef} {name : String} {value : Expr}
      {place span : Span} :
      Derives .type ts t → Derives (.expr .expression) us value →
      Derives .param (ts ++ .identifier name :: .punct .assign :: us)
        ⟨t, ⟨name, place⟩, some value, span⟩
  | valueBody {ts : List Token} {value : Expr} {place span : Span} :
      Derives (.expr .expression) ts value →
      Derives .body (.punct .assign :: ts) ⟨[.return_ value place], span⟩
  | blockBody {ts : List Token} {b : Block} : Derives .block ts b → Derives .body ts b
  -- Statements.
  | block {ts : List Token} {ss : List Stmt} {span : Span} :
      Derives .sequence ts ss →
      Derives .block (.punct .lbrace :: (ts ++ [.punct .rbrace])) ⟨ss, span⟩
  | noStatements : Derives .sequence [] []
  | sequence {ts us : List Token} {ss : List Stmt} {s : Stmt} :
      Derives .sequence ts ss → Derives .statement us s →
      Derives .sequence (ts ++ us) (ss ++ [s])
  | blockStatements {ts : List Token} {b : Block} :
      Derives .block ts b → Derives .statements ts b
  | oneStatement {ts : List Token} {s : Stmt} {span : Span} :
      Derives .statement ts s → Derives .statements ts ⟨[s], span⟩
  | statement {ts : List Token} {s : Stmt} : Derives .sentence ts s → Derives .statement ts s
  | endedStatement {ts : List Token} {s : Stmt} :
      Derives .sentence ts s → Derives .statement (ts ++ [.punct .semi]) s
  | define {ts : List Token} {d : VarDef} : Derives .varDef ts d → Derives .sentence ts (.define d)
  | function {ts : List Token} {f : FunctionDef} :
      Derives .funDef ts f → Derives .sentence ts (.function f)
  | return_ {ts : List Token} {value : Expr} {span : Span} :
      Derives (.expr .expression) ts value →
      Derives .sentence (.keyword .return_ :: ts) (.return_ value span)
  | for_ {ts us vs : List Token} {t : TypeRef} {name : String} {iterable : Expr} {body : Block}
      {place span : Span} :
      Derives .type ts t → Derives (.expr .expression) us iterable → Derives .statements vs body →
      Derives .sentence
        (.keyword .for_ :: (ts ++ .identifier name :: .keyword .in_ ::
          (us ++ .keyword .do_ :: vs)))
        (.for_ t ⟨name, place⟩ iterable body span)
  | while_ {ts us : List Token} {condition : Expr} {body : Block} {span : Span} :
      Derives (.expr .boolean) ts condition → Derives .statements us body →
      Derives .sentence (.keyword .while_ :: (ts ++ .keyword .do_ :: us))
        (.while_ condition body span)
  | assign {ts : List Token} {name : String} {value : Expr} {place span : Span} :
      Derives (.expr .expression) ts value →
      Derives .sentence (.identifier name :: .punct .assign :: ts)
        (.assign ⟨name, place⟩ value span)
  | expr {ts : List Token} {value : Expr} :
      Derives (.expr .expression) ts value → Derives .sentence ts (.expr value)
  -- Expressions.
  | lift {level below : Level} {ts : List Token} {e : Expr} :
      below ∈ level.alternatives → Derives (.expr below) ts e → Derives (.expr level) ts e
  | conditional {ts us : List Token} {condition : Expr} {yes : Block} {span : Span} :
      Derives (.expr .boolean) ts condition → Derives .statements us yes →
      Derives (.expr .conditional) (.keyword .if_ :: (ts ++ .keyword .then_ :: us))
        (.conditional condition yes none span)
  | conditionalElse {ts us vs : List Token} {condition : Expr} {yes no : Block} {span : Span} :
      Derives (.expr .boolean) ts condition → Derives .statements us yes →
      Derives .statements vs no →
      Derives (.expr .conditional)
        (.keyword .if_ :: (ts ++ .keyword .then_ :: (us ++ .keyword .else_ :: vs)))
        (.conditional condition yes (some no) span)
  | lambda {ts us vs : List Token} {t : TypeRef} {params : List Param} {body : Block}
      {span : Span} :
      Derives .type ts t → Derives .params us params → Derives .body vs body →
      Derives (.expr .lambda) (.keyword .fun_ :: (ts ++ (us ++ vs)))
        (.function ⟨none, t, params, body, span⟩)
  | update {ts us : List Token} {target key value : Expr} {place span : Span} :
      Derives (.expr .target) ts (.index target key place) → Derives (.expr .expression) us value →
      Derives (.expr .update) (ts ++ .punct .assign :: us) (.update target key value span)
  | target {ts us : List Token} {target key : Expr} {span : Span} :
      Derives (.expr .suffixed) ts target → Derives (.expr .expression) us key →
      Derives (.expr .target) (ts ++ .punct .lbracket :: (us ++ [.punct .rbracket]))
        (.index target key span)
  | groupedTarget {ts : List Token} {e : Expr} :
      Derives (.expr .target) ts e →
      Derives (.expr .target) (.punct .lparen :: (ts ++ [.punct .rparen])) e
  | binary {level : Level} {token : Token} {op : BinaryOp} {ts us : List Token}
      {left right : Expr} {span : Span} :
      (token, op) ∈ level.operators → Derives (.expr level.sides.1) ts left →
      Derives (.expr level.sides.2) us right →
      Derives (.expr level) (ts ++ token :: us) (.binary left op right span)
  | not {ts : List Token} {e : Expr} {span : Span} :
      Derives (.expr .negation) ts e →
      Derives (.expr .negation) (.keyword .not :: ts) (.unary .not e span)
  | negate {ts : List Token} {e : Expr} {span : Span} :
      Derives (.expr .unary) ts e →
      Derives (.expr .unary) (.punct .minus :: ts) (.unary .neg e span)
  | apply {ts us : List Token} {callee : Expr} {args : List Expr} {span : Span} :
      Derives (.expr .suffixed) ts callee → Derives .args us args →
      Derives (.expr .suffixed) (ts ++ us) (.apply callee args span)
  | index {ts us : List Token} {target key : Expr} {span : Span} :
      Derives (.expr .suffixed) ts target → Derives (.expr .expression) us key →
      Derives (.expr .suffixed) (ts ++ .punct .lbracket :: (us ++ [.punct .rbracket]))
        (.index target key span)
  | method {ts us : List Token} {receiver : Expr} {name : String} {args : List Expr}
      {place span : Span} :
      Derives (.expr .suffixed) ts receiver → Derives .args us args →
      Derives (.expr .suffixed) (ts ++ .punct .dot :: .identifier name :: us)
        (.method receiver ⟨name, place⟩ args span)
  | number {literal : Literal} {span : Span} :
      Derives (.expr .atom) [.number literal] (.number literal.value span)
  | true_ {span : Span} : Derives (.expr .atom) [.keyword .true_] (.bool true span)
  | false_ {span : Span} : Derives (.expr .atom) [.keyword .false_] (.bool false span)
  | create {ts us : List Token} {t : TypeRef} {args : List Expr} {span : Span} :
      Derives .type ts t → Derives .args us args →
      Derives (.expr .atom) (.keyword .new :: (ts ++ us)) (.create t args span)
  | call {ts : List Token} {name : String} {args : List Expr} {place span : Span} :
      Derives .args ts args →
      Derives (.expr .atom) (.identifier name :: ts) (.call ⟨name, place⟩ args span)
  | name {name : String} {span : Span} :
      Derives (.expr .atom) [.identifier name] (.name name span)
  | group {ts : List Token} {e : Expr} :
      Derives (.expr .expression) ts e →
      Derives (.expr .atom) (.punct .lparen :: (ts ++ [.punct .rparen])) e
  | noArgs : Derives .args [.punct .lparen, .punct .rparen] []
  | args {ts : List Token} {es : List Expr} :
      Derives .exprList ts es → Derives .args (.punct .lparen :: (ts ++ [.punct .rparen])) es
  | oneExpr {ts : List Token} {e : Expr} :
      Derives (.expr .expression) ts e → Derives .exprList ts [e]
  | moreExprs {ts us : List Token} {es : List Expr} {e : Expr} :
      Derives .exprList ts es → Derives (.expr .expression) us e →
      Derives .exprList (ts ++ .punct .comma :: us) (es ++ [e])
  -- Collections.
  | emptyMap {span : Span} :
      Derives (.expr .collection) [.punct .lbracket, .punct .colon, .punct .rbracket]
        (.map [] span)
  | map {ts : List Token} {es : List (Expr × Expr)} {span : Span} :
      Derives .entries ts es →
      Derives (.expr .collection) (.punct .lbracket :: (ts ++ [.punct .rbracket])) (.map es span)
  | oneEntry {ts us : List Token} {key value : Expr} :
      Derives (.expr .expression) ts key → Derives (.expr .expression) us value →
      Derives .entries (ts ++ .punct .colon :: us) [(key, value)]
  | moreEntries {ts us vs : List Token} {es : List (Expr × Expr)} {key value : Expr} :
      Derives .entries ts es → Derives (.expr .expression) us key →
      Derives (.expr .expression) vs value →
      Derives .entries (ts ++ .punct .comma :: (us ++ .punct .colon :: vs)) (es ++ [(key, value)])
  | range {ts us : List Token} {dots : Punct} {inclusive : Bool} {first last : Expr}
      {span : Span} :
      (dots, inclusive) ∈ [(.dotDot, false), (.dotDotDot, true)] →
      Derives (.expr .expression) ts first → Derives (.expr .expression) us last →
      Derives (.expr .collection)
        (.punct .lbracket :: (ts ++ .punct dots :: (us ++ [.punct .rbracket])))
        (.range first last inclusive none span)
  | steppedRange {ts us vs : List Token} {dots : Punct} {inclusive : Bool}
      {first last step : Expr} {span : Span} :
      (dots, inclusive) ∈ [(.dotDot, false), (.dotDotDot, true)] →
      Derives (.expr .expression) ts first → Derives (.expr .expression) us last →
      Derives (.expr .expression) vs step →
      Derives (.expr .collection)
        (.punct .lbracket ::
          (ts ++ .punct dots :: (us ++ .keyword .step :: (vs ++ [.punct .rbracket]))))
        (.range first last inclusive (some step) span)
  | emptyList {span : Span} :
      Derives (.expr .collection) [.punct .lbracket, .punct .rbracket] (.list [] span)
  | list {ts : List Token} {es : List Expr} {span : Span} :
      Derives .exprList ts es →
      Derives (.expr .collection) (.punct .lbracket :: (ts ++ [.punct .rbracket])) (.list es span)

/-! ## Contents -/

/-- What a token says besides the shape of a tree. -/
inductive Content where
  /-- A name or the name of a type; `fun` is the name of a type and starts functions. -/
  | name (text : String)
  | number (value : Float)
  | bool (value : Bool)
  | operator (symbol : String)
  | bounds (inclusive : Bool)
  | constant

/-- What a token says; most say nothing. -/
def Token.contents : Token → List Content
  | .identifier name => [.name name]
  | .number literal => [.number literal.value]
  | .malformed .. => []
  | .keyword k =>
      match k with
      | .fun_ => [.name "fun"]
      | .true_ => [.bool true]
      | .false_ => [.bool false]
      | .const => [.constant]
      | .or | .xor | .and | .not => [.operator k.text]
      | _ => []
  | .punct q =>
      match q with
      | .dotDot => [.bounds false]
      | .dotDotDot => [.bounds true]
      | .eq | .notEq | .less | .lessEq | .greater | .greaterEq | .plus | .minus | .star | .slash
      | .percent | .caret => [.operator q.text]
      | _ => []

mutual

/-- What the tokens of an expression say, in order. -/
def Expr.contents : Expr → List Content
  | .number value _ => [.number value]
  | .bool value _ => [.bool value]
  | .list items _ => exprsContents items
  | .map entries _ => entriesContents entries
  | .range first last inclusive step _ =>
      first.contents ++ .bounds inclusive :: (last.contents ++ stepContents step)
  | .name name _ => [.name name]
  | .call name args _ => .name name.name :: exprsContents args
  | .apply callee args _ => callee.contents ++ exprsContents args
  | .method receiver name args _ => receiver.contents ++ .name name.name :: exprsContents args
  | .create type args _ => .name type.name :: exprsContents args
  | .index target key _ => target.contents ++ key.contents
  | .update target key value _ => target.contents ++ (key.contents ++ value.contents)
  | .binary left op right _ => left.contents ++ .operator op.symbol :: right.contents
  | .unary op operand _ => .operator op.symbol :: operand.contents
  | .conditional condition yes no _ => condition.contents ++ (yes.contents ++ noContents no)
  | .function definition => definition.contents

/-- What the tokens of several expressions say. -/
def exprsContents : List Expr → List Content
  | [] => []
  | e :: es => e.contents ++ exprsContents es

/-- What the tokens of the entries of a map say. -/
def entriesContents : List (Expr × Expr) → List Content
  | [] => []
  | (key, value) :: es => key.contents ++ (value.contents ++ entriesContents es)

/-- What the tokens of an expression say that may be absent. -/
def stepContents : Option Expr → List Content
  | none => []
  | some e => e.contents

/-- What the tokens of a block say that may be absent. -/
def noContents : Option Block → List Content
  | none => []
  | some b => b.contents

/-- What the tokens of a statement say. -/
def Stmt.contents : Stmt → List Content
  | .define definition => definition.contents
  | .function definition => definition.contents
  | .assign name value _ => .name name.name :: value.contents
  | .expr value => value.contents
  | .return_ value _ => value.contents
  | .for_ type item iterable body _ =>
      .name type.name :: .name item.name :: (iterable.contents ++ body.contents)
  | .while_ condition body _ => condition.contents ++ body.contents

/-- What the tokens of several statements say. -/
def stmtsContents : List Stmt → List Content
  | [] => []
  | s :: ss => s.contents ++ stmtsContents ss

/-- What the tokens of a block say. -/
def Block.contents : Block → List Content
  | ⟨stmts, _⟩ => stmtsContents stmts

/-- What the tokens of a parameter say. -/
def Param.contents : Param → List Content
  | ⟨type, name, value, _⟩ => .name type.name :: .name name.name :: stepContents value

/-- What the tokens of several parameters say. -/
def paramsContents : List Param → List Content
  | [] => []
  | p :: ps => p.contents ++ paramsContents ps

/-- What the tokens of a function say. -/
def FunctionDef.contents : FunctionDef → List Content
  | ⟨name, result, params, body, _⟩ =>
      .name "fun" :: .name result.name ::
        ((name.map fun ident => Content.name ident.name).toList ++
          (paramsContents params ++ body.contents))

/-- What the tokens of a definition say. -/
def VarDef.contents : VarDef → List Content
  | ⟨type, name, value, constant, _⟩ =>
      (if constant then [.constant] else []) ++
        .name type.name :: .name name.name :: value.contents

end

/-- What the tokens of a tree say. -/
def Nonterminal.contents : (n : Nonterminal) → n.Tree → List Content
  | .program => fun program =>
      program.globals.flatMap VarDef.contents ++ program.functions.flatMap FunctionDef.contents
  | .globals => List.flatMap VarDef.contents
  | .functions => List.flatMap FunctionDef.contents
  | .varDef => VarDef.contents
  | .funDef => FunctionDef.contents
  | .params | .paramList => paramsContents
  | .param => Param.contents
  | .body | .block | .statements => Block.contents
  | .type => fun type => [.name type.name]
  | .sequence => stmtsContents
  | .statement | .sentence => Stmt.contents
  | .expr _ => Expr.contents
  | .args | .exprList => exprsContents
  | .entries => entriesContents

theorem exprsContents_append (es fs : List Expr) :
    exprsContents (es ++ fs) = exprsContents es ++ exprsContents fs := by
  induction es with
  | nil => rfl
  | cons e es ih => simp [exprsContents, ih]

theorem entriesContents_append (es fs : List (Expr × Expr)) :
    entriesContents (es ++ fs) = entriesContents es ++ entriesContents fs := by
  induction es with
  | nil => rfl
  | cons e es ih => simp [entriesContents, ih]

theorem stmtsContents_append (ss ts : List Stmt) :
    stmtsContents (ss ++ ts) = stmtsContents ss ++ stmtsContents ts := by
  induction ss with
  | nil => rfl
  | cons s ss ih => simp [stmtsContents, ih]

theorem paramsContents_append (ps qs : List Param) :
    paramsContents (ps ++ qs) = paramsContents ps ++ paramsContents qs := by
  induction ps with
  | nil => rfl
  | cons p ps ih => simp [paramsContents, ih]

theorem Level.contents_of_mem {level : Level} {token : Token} {op : BinaryOp}
    (member : (token, op) ∈ level.operators) : token.contents = [.operator op.symbol] := by
  have all_operators : ∀ entry ∈ level.operators,
      entry.1.contents = [.operator entry.2.symbol] := by
    cases level <;>
      simp [Level.operators, Token.contents, Keyword.text, Punct.text, BinaryOp.symbol]
  exact all_operators _ member

/-- A tree says what its tokens say, each once and in the same order. -/
theorem Derives.contents_eq {n : Nonterminal} {tokens : List Token} {tree : n.Tree}
    (derives : Derives n tokens tree) : tokens.flatMap Token.contents = n.contents tree := by
  induction derives with
  | binary member _ _ ih_left ih_right =>
      simp_all [Nonterminal.contents, Expr.contents, Level.contents_of_mem member]
  | range bounds _ _ ih_first ih_last =>
      simp only [List.mem_cons, Prod.mk.injEq, List.not_mem_nil, or_false] at bounds
      rcases bounds with ⟨rfl, rfl⟩ | ⟨rfl, rfl⟩ <;>
        simp_all [Nonterminal.contents, Expr.contents, Token.contents, stepContents]
  | steppedRange bounds _ _ _ ih_first ih_last ih_step =>
      simp only [List.mem_cons, Prod.mk.injEq, List.not_mem_nil, or_false] at bounds
      rcases bounds with ⟨rfl, rfl⟩ | ⟨rfl, rfl⟩ <;>
        simp_all [Nonterminal.contents, Expr.contents, Token.contents, stepContents]
  | _ =>
      simp_all [Nonterminal.contents, Token.contents, Expr.contents, Stmt.contents,
        Block.contents, Param.contents, FunctionDef.contents, VarDef.contents, exprsContents,
        entriesContents, stmtsContents, paramsContents, stepContents, noContents,
        exprsContents_append, entriesContents_append, stmtsContents_append,
        paramsContents_append, Keyword.text, Punct.text, UnaryOp.symbol]

end Formwork
