import Mathlib.Tactic

/-!
# Shared syntax budgets (`validation.rs`)
-/

namespace Glaux
namespace Standards

abbrev Bytes := List UInt8

def maxBytes : Nat := 262144

def maxDepth : Nat := 32

def maxNodes : Nat := 4096

def maxMembers : Nat := 512

def maxStringBytes : Nat := 16384

end Standards
end Glaux
