import Mathlib.Data.Sym.Sym2
import FerrumNexus.Publishing.SpecTermination

/-!
# Which pairs are one work item

A pair of references is queued under a text that joins the direction and both
references with a NUL between them. A reference may hold a NUL itself, so two
pairs can share that text, and exactly then the second of them is taken for the
first and never compared.
-/
namespace FerrumNexus.Publishing.SpecChanges

open OpenApi Saga Metered

/-! ## Keys -/

section Items

end Items

variable {ι κ : Type} [Fintype ι] [Fintype κ] [DecidableEq ι] [DecidableEq κ]

section Claims

variable (texts : Texts) (before : Document ι) (after : Document κ)

end Claims

section Proofs

variable {texts : Texts} {before : Document ι} {after : Document κ} {pair pair' : ι × κ × Direction}

end Proofs

end FerrumNexus.Publishing.SpecChanges
