/-! # Symbols

Names are compared by their text, so equal texts are the same symbol everywhere.
-/

namespace SmallScheme

structure Symbol where
  text : String
  deriving DecidableEq

end SmallScheme
