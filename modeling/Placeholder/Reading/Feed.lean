import Placeholder.Failure
import Placeholder.Text.Utf8
/-!
A feed of bytes: what a reader of a file, a pipe or a socket is going to hand out, delivery by
delivery. Deliveries may be interrupted or fail in between, and at the end the feed is either closed
or broken for good.
-/
namespace Placeholder

/-- What one request for bytes gives. A delivery of bytes holds at least one. -/
inductive Delivery where
  | bytes (first : UInt8) (rest : Bytes)
  | interrupted
  | failed (failure : IoFailure)
deriving DecidableEq

/-- What every request gives once the deliveries are used up. -/
inductive Ending where
  | closed
  | broken (failure : IoFailure)
deriving DecidableEq

/-- The deliveries still to come, and what follows them. -/
structure Feed where
  deliveries : List Delivery
  ending : Ending
deriving DecidableEq

/-- The bytes of a delivery. -/
def Delivery.content : Delivery → Bytes
  | bytes first rest => first :: rest
  | _ => []

namespace Feed

/-- A reader asks for this many bytes at a time. -/
def requestSize : Nat := 8192

/-- Bytes handed out at most `size` at a time. -/
def cut (size : Nat) (bytes : Bytes) : List Delivery :=
  match bytes with
  | [] => []
  | first :: rest =>
    .bytes first (rest.take (size - 1)) :: cut size (rest.drop (size - 1))
termination_by bytes.length
decreasing_by simp only [List.length_drop, List.length_cons]; omega

/-- A feed of these bytes that then closes. -/
def ofBytes (bytes : Bytes) : Feed := ⟨cut requestSize bytes, .closed⟩

/-- A feed that fails at once and always. -/
def ofFailure (failure : IoFailure) : Feed := ⟨[], .broken failure⟩

/-- No request fails with a failure that carries one of another layer, as no request to the system
does. -/
def Plain (feed : Feed) : Prop :=
  ∀ kind failure, .failed (.carrying kind failure) ∉ feed.deliveries ∧
    feed.ending ≠ .broken (.carrying kind failure)

theorem failed_not_mem_cut (size : Nat) (bytes : Bytes) (failure : IoFailure) :
    .failed failure ∉ cut size bytes := by
  induction bytes using cut.induct size with
  | case1 => simp [cut]
  | case2 first rest ih => simp [cut, ih]

theorem plain_ofBytes (bytes : Bytes) : (ofBytes bytes).Plain := fun _ _ =>
  ⟨failed_not_mem_cut requestSize bytes _, Ending.noConfusion⟩

/-- All bytes still to come. -/
def content (feed : Feed) : Bytes :=
  feed.deliveries.flatMap Delivery.content

end Feed

end Placeholder
