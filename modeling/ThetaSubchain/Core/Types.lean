/-
The byte-level types of the chain and the result of a check.

Hashes and addresses are the fixed-width arrays of the source.  A hash function is
therefore never injective as a whole; every result that needs collision-freedom
asks for it on the inputs that are hashed.
-/
import ThetaSubchain.Lib.Rlp

namespace ThetaSubchain

abbrev Bytes := List UInt8

abbrev Hash := BitVec 256

instance : LawfulBEq Hash := inferInstance

abbrev Address := BitVec 160

/-- The zero value stands for a missing hash. -/
def Hash.isEmpty (h : Hash) : Bool := h == 0

def Address.isEmpty (a : Address) : Bool := a == 0

structure Signature where
  bytes : Bytes
deriving DecidableEq, Repr

def Signature.isEmpty (s : Signature) : Bool := s.bytes.isEmpty

/-- `crypto.Signature.Verify`: the signature is one of the address's key on the bytes. -/
abbrev Verifier := Signature → Bytes → Address → Bool

/-- `result.Result`.  An undecided result is neither a success nor an error. -/
inductive Result where
  | ok
  | error (message : String)
  | undecided (message : String)
deriving DecidableEq, Repr

def Result.isOK : Result → Bool
  | .ok => true
  | _ => false

def Result.isError : Result → Bool
  | .error _ => true
  | _ => false

def Result.isUndecided : Result → Bool
  | .undecided _ => true
  | _ => false

def numMainchainBlocksPerDynasty : Int := 10000

def calculateDynasty (mainchainHeight : Int) : Int :=
  mainchainHeight / numMainchainBlocksPerDynasty

open Rlp (Item)

def Hash.toItem (h : Hash) : Item := .fixed 32 h.toNat

def Address.toItem (a : Address) : Item := .fixed 20 a.toNat

def signatureItem : Option Signature → Item
  | some s => .str s.bytes
  | none => .str []

theorem Hash.toItem_injective : Function.Injective Hash.toItem := by
  intro a b h
  rw [Hash.toItem, Hash.toItem, Item.fixed, Item.fixed, Item.str.injEq] at h
  have hlt : ∀ x : Hash, x.toNat < 256 ^ 32 := fun x => by
    have := x.isLt
    norm_num at this ⊢
    exact this
  exact BitVec.eq_of_toNat_eq (Rlp.fixedBytes_inj (hlt a) (hlt b) h)

end ThetaSubchain
