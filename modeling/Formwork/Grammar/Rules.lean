import Formwork.Grammar.Phrase

/-!
# The grammar

The phrase of each rule. Alternatives are tried in order and the first that succeeds is taken.

* A definition names a type, a name and a value; a function has parameters and a body, which is a
  block or an expression after `=`.
* The operators from the loosest to the tightest: `or` and `xor`; `and`; `not`; one comparison; `+`
  and `-`; `*`, `/` and `%`; `^`; unary `-`; then calls, elements and methods. All but comparison
  group to the left, `^` too.
* An opening bracket starts a map, a range or a list; the token after the first expression tells
  which.
-/

namespace Formwork

open Phrase

/-- The phrase of each rule. -/
def Rule.phrase : Rule → Phrase
  | .type => .choice (.token (.keyword .fun_) .type) (.token .identifier .type)
  | .varDef =>
    chain [.option (.token (.keyword .const) .constant), .rule .type, ident, sign .assign,
      .rule .expression] (.reduce .varDef)
  | .funDef =>
    chain [word .fun_, .rule .type, ident, .rule .params, .rule .body] (.reduce .namedFunction)
  | .lambda =>
    .remembered .lambda <|
      chain [word .fun_, .rule .type, .rule .params, .rule .body] (.reduce .lambda)
  | .params =>
    chain [sign .lparen, .option (commaList (.rule .param))] (sign .rparen)
  | .param =>
    chain [.rule .type, ident, .option (.seq (sign .assign) (.rule .expression))]
      (.reduce .param)
  | .body =>
    .branch (.punct .assign) (.seq (.rule .expression) (.reduce .returnBody)) (.rule .block)
  | .block =>
    chain [sign .lbrace, .many (.rule .statement), sign .rbrace] (.reduce .block)
  | .statements =>
    .choice (.rule .block) (.seq (.rule .statement) (.reduce .singleton))
  | .statement =>
    .nested <| .seq
      (firstOf
        [.seq (.rule .varDef) (.reduce .defineStmt),
          .seq (.rule .funDef) (.reduce .functionStmt),
          chain [word .return_, .rule .expression] (.reduce .returnStmt),
          chain [word .for_, .rule .type, ident, word .in_, .rule .expression, word .do_,
            .rule .statements] (.reduce .forStmt),
          chain [word .while_, .rule .boolean, word .do_, .rule .statements] (.reduce .whileStmt),
          chain [ident, sign .assign, .rule .expression] (.reduce .assignStmt)]
        (.seq (.rule .expression) (.reduce .exprStmt)))
      (.option (sign .semi))
  | .expression =>
    .nested (firstOf [.rule .conditional, .rule .lambda] (.rule .update))
  | .update =>
    .seq (.rule .boolean) <|
      .afterIndex (chain [sign .assign, .rule .expression] (.reduce .update))
  | .boolean =>
    leftFold .conjunction [(.keyword .or, .or)] (.keyword .xor, .xor)
  | .conjunction => leftFold .negation [] (.keyword .and, .and)
  | .negation =>
    .branch (.keyword .not) (.seq (.nested (.rule .negation)) (.reduce .not)) (.rule .comparison)
  | .comparison =>
    .seq (.rule .sum) <| .option <|
      chain [operators
        [(.punct .eq, .eq), (.punct .notEq, .notEq), (.punct .lessEq, .lessEq),
          (.punct .less, .less), (.punct .greaterEq, .greaterEq)] (.punct .greater, .greater),
        .rule .sum] (.reduce .binary)
  | .sum => leftFold .product [(.punct .plus, .add)] (.punct .minus, .sub)
  | .product =>
    leftFold .power [(.punct .star, .mul), (.punct .slash, .div)] (.punct .percent, .mod)
  | .power => leftFold .unary [] (.punct .caret, .pow)
  | .unary =>
    .choice (.rule .suffixed) <|
      chain [sign .minus, .nested (.rule .unary)] (.reduce .negate)
  | .suffixed =>
    .seq (.rule .atom) <| .many <|
      firstOf
        [.seq (.rule .args) (.reduce .apply),
          chain [sign .lbracket, .rule .expression, sign .rbracket] (.reduce .index)]
        (chain [sign .dot, ident, .rule .args] (.reduce .method))
  | .args =>
    .remembered .args <|
      chain [sign .lparen, .option (commaList (.rule .expression))] (sign .rparen)
  | .atom =>
    firstOf
      [.number,
        .choice (.token (.keyword .true_) (.bool true)) (.token (.keyword .false_) (.bool false)),
        chain [word .new, .rule .type, .rule .args] (.reduce .create),
        .rule .collection,
        .seq ident (.choice (.seq (.rule .args) (.reduce .call)) (.reduce .name)),
        chain [sign .lparen, .rule .expression] (sign .rparen),
        .rule .conditional]
      (.rule .lambda)
  | .conditional =>
    .remembered .conditional <|
      chain [word .if_, .rule .boolean, word .then_, .rule .statements,
        .option (.seq (word .else_) (.rule .statements))] (.reduce .conditional)
  | .collection =>
    .seq (sign .lbracket) <|
      .choice (chain [sign .colon, sign .rbracket] (.reduce .map)) <|
        .branch (.punct .rbracket) (.reduce .list) <|
          .seq (.rule .expression) <|
            .choice
              (chain [.choice (.token (.punct .dotDotDot) (.bounds true))
                  (.token (.punct .dotDot) (.bounds false)),
                .rule .expression, .option (.seq (word .step) (.rule .expression)),
                sign .rbracket] (.reduce .range)) <|
              .choice
                (chain [sign .colon, .rule .expression, .reduce .entry,
                  .many (chain [sign .comma, .rule .expression, sign .colon, .rule .expression]
                    (.reduce .entry)), sign .rbracket] (.reduce .map))
                (chain [.many (.seq (sign .comma) (.rule .expression)), sign .rbracket]
                  (.reduce .list))

end Formwork
