/-
The two messages of the protocol (`include/snfs_proto.h`), with the union of the bodies
left open: `B` and `R` are the types of what is carried.
-/
import Mathlib.Logic.Basic

namespace Sthreads

/-- `snfs_msg_req_t` with a body of type `B`. -/
structure MsgReq (B : Type) where
  type : Int
  sn : Int
  body : B

/-- `snfs_msg_res_t` with a body of type `R`. -/
structure MsgRes (R : Type) where
  type : Int
  sn : Int
  status : Int
  body : R

/-- `RES_OK`. -/
def resOk : Int := 0

/-- `RES_ERROR`. -/
def resError : Int := -1

/-- `RES_UNKNOWN`. -/
def resUnknown : Int := -2

/-- `sizeof(res) - sizeof(res.body)`. -/
def resHeaderSize : Nat := 12

end Sthreads
