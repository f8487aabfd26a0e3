import Formwork.Token.Lexeme

/-!
# Recovery

After a definition that cannot be read, reading goes on at the next keyword that can start one.
`Position.skipToKeyword` finds it: it steps over gaps, whole words and single other characters.
-/

namespace Formwork

namespace Position

/-- Steps over gaps, words and other characters, at most `fuel` of them, to one of `wanted`. -/
def findKeyword (wanted : List Keyword) : Nat → Position → Position
  | 0, p => p
  | fuel + 1, p =>
    let p := p.skipGap
    if p.isEnd then p
    else
      match p.word? with
      | some (word, after) =>
        if wanted.any fun k => k.chars == word then p else findKeyword wanted fuel after
      | none => findKeyword wanted fuel p.skipOne

/-- The next place after the word or character here where one of `wanted` stands, or the end. -/
def skipToKeyword (p : Position) (wanted : List Keyword) : Position :=
  let after :=
    match p.word? with
    | some (_, after) => after
    | none => p.skipOne
  findKeyword wanted (after.rest.length + 1) after

end Position

end Formwork
