import FormulaDoc.Proofs.RoundTrip

namespace FormulaDoc

namespace Node

/-- A text of single characters without ids. -/
def textOf (cs : List Char) : Node :=
  .text "" (cs.map fun c => .symbol "" (String.singleton c))

theorem legible_textOf (cs : List Char) : (textOf cs).Legible := by
  intro m hm
  obtain rfl : m = textOf cs := by simpa [textOf, outer_eq, kind] using hm
  refine ⟨?_, by simp [textOf, names], by simp [textOf, runs, arguments]⟩
  simp [textOf, spelledAt, isLetter, Function.comp_def]

theorem ast_textOf (cs : List Char) :
    (textOf cs).ast = "\\text".toList ++ '{' :: (escape cs ++ ['}']) := by
  rw [textOf, ast_text, List.flatMap_map]
  congr 3
  refine List.flatMap_congr fun c _ => ?_
  rw [markup_text_symbol, String.toList_singleton, escape_singleton]

theorem reread_textOf (cs : List Char) : (textOf cs).reread = textOf cs := by
  rw [textOf, reread_text, List.map_map]
  congr 1
  exact List.map_congr_left fun c _ => reread_symbol _ _

theorem relabel_textOf (path : String) (cs : List Char) :
    (textOf cs).relabel false path = .text path
      (cs.mapIdx fun i c => .symbol (path ++ "." ++ toString i) (String.singleton c)) := by
  rw [textOf, relabel_eq]
  simp only [id?, pathId, withChildren, withId, children, slots]
  congr 1
  refine List.ext_getElem (by simp) fun i hi hi' => ?_
  rw [List.getElem_zipWith, List.getElem_map, List.getElem_map, List.getElem_range, List.getElem_mapIdx,
    relabel_eq]
  rfl

end Node

/-- Whatever characters a caption has, its escaped form is a verbatim group that ends right behind it, it
stands for these characters alone, and the text of it is parsed as one text of them. -/
theorem Formula.parse_text_escape (c : String) (w : List Char) :
    rawGroup ('{' :: (escape c.toList ++ '}' :: w)) = .ok (escape c.toList, w) ∧
    unescape (escape c.toList) = c.toList ∧
    ∃ f, Formula.parse [] ("\\text\x7b" ++ String.ofList (escape c.toList) ++ "\x7d") = .ok f ∧
      f.children = [.text "0" (c.toList.mapIdx fun i a => .symbol ("0." ++ toString i) (String.singleton a))] := by
  have hmarkup : ("\\text\x7b" ++ String.ofList (escape c.toList) ++ "\x7d").toList =
      joined [Node.textOf c.toList] := by
    simp [joined, following, Node.ast_textOf]
  have hlegible : ∀ n ∈ [Node.textOf c.toList], n.Legible := by
    intro n hn
    rw [List.mem_singleton.mp hn]
    exact Node.legible_textOf c.toList
  have hparse := parse_joined hlegible hmarkup
  refine ⟨rawGroup_escape c.toList w, unescape_escape c.toList, _, hparse, ?_⟩
  show [(Node.textOf c.toList).reread.relabel false "0"] = _
  rw [Node.reread_textOf, Node.relabel_textOf]
  rfl

end FormulaDoc
