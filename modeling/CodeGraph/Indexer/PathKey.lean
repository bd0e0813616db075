import CodeGraph.Lib.Squeeze
import Mathlib.Data.List.Infix

/-!
# Path keys

`normalize_rel_str_on` of `indexer/merkle.rs`, which every path that becomes an index key goes through. A path is its
characters.
-/

namespace CodeGraph.Indexer.PathKey

open CodeGraph.Lib

/-- The rewrite of backslashes, where they separate. -/
def unify (backslashIsSep : Bool) (rel : List Char) : List Char :=
  if backslashIsSep then rel.map fun c => if c = '\\' then '/' else c else rel

/-- `normalize_rel_str_on`. -/
def normalizeRelStrOn (rel : List Char) (backslashIsSep : Bool) : List Char :=
  let unified := unify backslashIsSep rel
  if ¬['/', '/'] <:+: unified then unified
  else
    -- the body of a UNC path is squeezed as if nothing stood before it
    let uncRoot := ['/', '/'] <+: unified
    let body := if uncRoot then unified.drop 2 else unified
    (if uncRoot then ['/', '/'] else []) ++ squeeze (· == '/') body

end CodeGraph.Indexer.PathKey
