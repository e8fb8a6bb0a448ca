import Pinax.Library.BigEndian
import Mathlib.Order.Basic

/-! # Errors, and the ways a call can stop

`PinaxError` has the two tiers of `error.rs`; its constructors carry the fields the source fills in
(the file path and the source location, which nothing inspects, are left out).  `Stop` adds the two
ways in which a Rust call fails to return: an arithmetic overflow under `overflow-checks`, and a
loop that is still running when the bound of the run is reached.
-/

namespace Pinax

export BigEndian (Bytes toBe ofBe)

/-- An `i64`. -/
structure I64 where
  val : Int
  lower : -9223372036854775808 ≤ val
  upper : val < 9223372036854775808
  deriving DecidableEq

@[ext] theorem I64.ext {a b : I64} (h : a.val = b.val) : a = b := by
  cases a; cases b; simp_all

/-- The largest `u32`. -/
abbrev u32Max : Nat := 4294967295

inductive PermanentError
  | invalidPageSize (requested : Nat)
  | invalidBufferPoolCapacity
  | alreadyExists
  | keyAlreadyExists (key : I64)
  | keyNotFound (key : I64)
  | payloadTooLarge (key : I64) (encodedLen : Nat)
  deriving DecidableEq

inductive FatalError
  | corruption (pageId expected actual : Nat)
  | noValidMetaPage
  | fileTooSmall (actualLen minLen : Nat)
  | bufferBounds (at' len bufLen : Nat)
  | unexpectedPageType (pageId : Nat) (expected : String) (actual : Nat)
  | invalidRowEncoding (reason : String)
  | poolInvariantViolated
  | io
  deriving DecidableEq

inductive PinaxError
  | permanent (source : PermanentError)
  | fatal (source : FatalError)
  deriving DecidableEq

/-- Why a call did not return `Ok`. -/
inductive Stop
  /-- it returned `Err` -/
  | err (e : PinaxError)
  /-- an arithmetic overflow panicked -/
  | panic
  /-- a loop used up the bound of the run and is still going -/
  | running
  deriving DecidableEq

abbrev Res := Except Stop

def Stop.permanent (e : PermanentError) : Stop := .err (.permanent e)
def Stop.fatal (e : FatalError) : Stop := .err (.fatal e)
def Stop.io : Stop := .fatal .io

instance {σ : Type} : MonadLift Res (EStateM Stop σ) where
  monadLift r := fun s => match r with
    | .ok a => .ok a s
    | .error e => .error e s

@[simp] theorem liftM_ok {σ α : Type} (a : α) :
    (liftM (Except.ok a : Res α) : EStateM Stop σ α) = pure a := rfl

@[simp] theorem liftM_error {σ α : Type} (e : Stop) :
    (liftM (Except.error e : Res α) : EStateM Stop σ α) = throw e := rfl

@[simp] theorem ok_bind {α β : Type} (a : α) (f : α → Res β) : (Except.ok a >>= f) = f a := rfl

@[simp] theorem error_bind {α β : Type} (e : Stop) (f : α → Res β) :
    ((Except.error e : Res α) >>= f) = .error e := rfl

@[simp] theorem pure_eq_ok {α : Type} (a : α) : (pure a : Res α) = .ok a := rfl

/-! ## Machine arithmetic -/

/-- Build profile: `dev` compiles arithmetic with overflow checks, `release` wraps. -/
inductive Profile
  | dev
  | release
  deriving DecidableEq

def Profile.overflow (profile : Profile) (wrapped : Nat) : Res Nat :=
  match profile with
  | .dev => .error .panic
  | .release => .ok wrapped

/-- `a + b` in an unsigned type of `width` bits. -/
def addW (profile : Profile) (width a b : Nat) : Res Nat :=
  if a + b < 2 ^ width then .ok (a + b) else profile.overflow ((a + b) % 2 ^ width)

/-- `a - b` in an unsigned type of `width` bits. -/
def subW (profile : Profile) (width a b : Nat) : Res Nat :=
  if b ≤ a then .ok (a - b) else profile.overflow (a + 2 ^ width - b)

/-- `a * b` in an unsigned type of `width` bits. -/
def mulW (profile : Profile) (width a b : Nat) : Res Nat :=
  if a * b < 2 ^ width then .ok (a * b) else profile.overflow (a * b % 2 ^ width)

/-- `uN::try_from(v).unwrap_or(fallback)`. -/
def tryFromOr (width v fallback : Nat) : Nat := if v < 2 ^ width then v else fallback

theorem addW_of_lt {profile : Profile} {width a b : Nat} (h : a + b < 2 ^ width) :
    addW profile width a b = .ok (a + b) := if_pos h

theorem subW_of_le {profile : Profile} {width a b : Nat} (h : b ≤ a) :
    subW profile width a b = .ok (a - b) := if_pos h

theorem mulW_of_lt {profile : Profile} {width a b : Nat} (h : a * b < 2 ^ width) :
    mulW profile width a b = .ok (a * b) := if_pos h

theorem tryFromOr_of_lt {width v fallback : Nat} (h : v < 2 ^ width) :
    tryFromOr width v fallback = v := if_pos h

end Pinax
