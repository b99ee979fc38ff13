/-
The calls of the client's interface (`snfs_lib/snfs_api.c`): the request a call builds, what
of it is sent, and what the call makes of the response.

A call that gets an error returns an error; what `snfs_lookup` writes to `*file` then is
`failedFile`.
-/
import Sthreads.Snfs.Service

namespace Sthreads.Client

open Snfs

/-- A call, with its input arguments.  Handles and numbers are the words they are kept in. -/
inductive ApiCall
  | ping (inmsg : CStr) (insize outsize : Nat)
  | lookup (pathname : CStr)
  | read (fhandle offset count : UInt32)
  | write (fhandle offset count : UInt32) (buffer : Nat → UInt8)
  | create (dir : UInt32) (name : CStr)
  | mkdir (dir : UInt32) (name : CStr)
  | readdir (dir cmax : UInt32)
  | copy (srcpath tgtpath : CStr)

/-! ### Path names -/

/-- `strstr(line, "//")` -/
def hasDoubleSlash : List UInt8 → Bool
  | a :: b :: rest => (a == slash && b == slash) || hasDoubleSlash (b :: rest)
  | _ => false

/-- The loop of `myparse`: no token is longer than `MAX_FILE_NAME_SIZE - 1`. -/
def shortTokens : Nat → Option (List UInt8) × List UInt8 → Bool
  | _, (none, _) => true
  | 0, (some _, _) => false
  | left + 1, (some token, rest) => token.length ≤ 13 && shortTokens left (strtok rest)

/-- `myparse`, which looks for a `/` at the end of the path behind its last character. -/
def myparse (pathname : CStr) : Bool :=
  let line := pathname.chars
  1 ≤ line.length && line.length < 200 && !line.contains 32 && !hasDoubleSlash line &&
    line.head? == some slash && shortTokens line.length (strtok line)

namespace ApiCall

/-- The limits that the client library enforces. -/
def Within : ApiCall → Prop
  | ping .. => True
  | lookup pathname => myparse pathname = true
  | read _ _ count => count.toNat ≤ 1024
  | write _ _ count _ => count.toNat ≤ 1024
  | create _ name => name.chars.length ≤ 13
  | mkdir _ name => name.chars.length ≤ 13
  | readdir .. => True
  | copy srcpath tgtpath => myparse srcpath = true ∧ myparse tgtpath = true

/-! ### Requests -/

/-- `req.type` -/
def type : ApiCall → Int
  | ping .. => 1
  | lookup _ => 2
  | read .. => 3
  | write .. => 4
  | create .. => 5
  | mkdir .. => 6
  | readdir .. => 7
  | copy .. => 8

/-- The body, which was filled with zeros.  Of what `snfs_ping` copies only the part that is inside
the body is here. -/
def body : ApiCall → Page 1036
  | ping inmsg insize _ => Page.copyTo (fun _ => 0) 0 insize fun i => inmsg.chars.getD i 0
  | lookup pathname => strcpy (fun _ => 0) 0 pathname.chars
  | read fhandle offset count =>
      ((Page.setWord (fun _ => 0) 0 fhandle).setWord 4 offset).setWord 8 count
  | write fhandle offset count buffer =>
      (((Page.setWord (fun _ => 0) 0 fhandle).setWord 4 offset).setWord 8 count).copyTo 12
        count.toNat buffer
  | create dir name => strcpy (Page.setWord (fun _ => 0) 0 dir) 4 name.chars
  | mkdir dir name => strcpy (Page.setWord (fun _ => 0) 0 dir) 4 name.chars
  | readdir dir cmax => (Page.setWord (fun _ => 0) 0 dir).setWord 4 cmax
  | copy srcpath tgtpath => strcpy (strcpy (fun _ => 0) 0 srcpath.chars) 200 tgtpath.chars

/-- The size of the variant of the body. -/
def bodySize : ApiCall → Nat
  | ping .. => 256
  | lookup _ => 14
  | read .. => 12
  | write .. => 1036
  | create .. => 20
  | mkdir .. => 20
  | readdir .. => 8
  | copy .. => 400

/-- `reqsz` -/
def reqSize (c : ApiCall) : Nat := 8 + c.bodySize

/-- The request, to which `remote_call` gives this serial number. -/
def request (c : ApiCall) (sn : Int) : Req := ⟨c.type, sn, c.body⟩

/-- The request is sent to all servers. -/
def toAllServers : ApiCall → Bool
  | write .. | create .. | mkdir .. | copy .. => true
  | _ => false

/-! ### Responses -/

/-- What the call returns of the response it got. -/
def results : ApiCall → Page 1540 → Results
  | ping _ _ outsize, b => .ping ((b.cstr 0).chars.take outsize)
  | lookup _, b => .lookup (b.word 0) (b.word 4)
  | read _ _ count, b =>
      .read ((List.range (min count.toNat (b.word 1024).toNat)).map b.get) (b.word 1024)
  | write .., b => .write (b.word 0)
  | create .., b => .create (b.word 0)
  | mkdir .., b => .mkdir (b.word 0)
  | readdir .., b => .readdir ((List.range (b.word 0).toNat).map (dirEntryAt b))
  | copy .., _ => .copy

/-- What the call returns, `none` for `STAT_ERROR`. -/
def returned (c : ApiCall) (res : Res) : Option Results :=
  if res.status ≠ resOk then none else some (c.results res.body)

end ApiCall

/-- `*file` after a `snfs_lookup` that returned an error -/
def failedFile (res : Res) : UInt32 := res.body.word 0

/-! ### On the way -/

/-- The first `reqsz` bytes of a request, received into a request that was filled with zeros. -/
def received (reqsz : Nat) (req : Req) : Req :=
  { req with body := fun k => if 8 + k.val < reqsz then req.body k else 0 }

/-- The first `ressz` bytes of a response, received where there was something else. -/
def delivered (ressz : Nat) (res : Res) (there : Page 1540) : Res :=
  { res with body := fun k => if resHeaderSize + k.val < ressz then res.body k else there k }

end Sthreads.Client
