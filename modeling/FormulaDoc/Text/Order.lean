/-!
Texts in the order of their code points.
-/

namespace FormulaDoc

def sortTexts (texts : List String) : List String :=
  texts.mergeSort fun a b => a ≤ b

end FormulaDoc
