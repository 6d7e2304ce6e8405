import Selectors.Token

/-!
# The standard scanner

The macros and rules of selectors make a scanner (`compile_standard_isSome`), so cutting a selector
into tokens cannot fail.
-/

namespace Selectors

namespace Scanner

theorem compile_standard_isSome : (compile .standard).toOption.isSome = true := by decide +kernel

/-- The scanner of selectors. -/
def standard : Scanner := (compile .standard).toOption.get compile_standard_isSome

end Scanner

/-- The tokens of a selector. -/
def tokenize (selector : String) : List Token := (Scanner.standard.run selector).tokens

end Selectors
