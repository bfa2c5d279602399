import QuicVibe.Packet.Header
/-!
# QPACK

Prefixed integers (`integer.c`), string literals with the canonical Huffman code (`string.c`,
`huffman.c`), the section prefix (`prefix.c`), the three forms of field lines (`fieldline.c`,
`literal.c`) and the static table (`static_table.c`). A decoder returns what it decoded with the
number of bytes it used.
-/

namespace QuicVibe

namespace Http3

open Packet

/-! ## Integers -/

/-- The all-ones value of a prefix (`prefix_max`). -/
def prefixMax (prefixBits : ℕ) : ℕ := 2 ^ prefixBits - 1

/-- The 7-bit groups of a value (`put_groups`); a 64-bit value has at most ten. -/
def groups : ℕ → ℕ → Bytes
  | 0, _ => []
  | fuel + 1, v =>
    if v ≥ 0x80 then UInt8.ofNat ((v &&& 0x7f) ||| 0x80) :: groups fuel (v >>> 7) else [UInt8.ofNat v]

/-- `quic_qpack_int_encode`, into `cap` bytes. -/
def intEncode (cap prefixBits : ℕ) (prefixValue : UInt8) (value : ℕ) : Option Bytes :=
  let pmax := prefixMax prefixBits
  let out :=
    if value < pmax then [prefixValue ||| UInt8.ofNat value]
    else (prefixValue ||| UInt8.ofNat pmax) :: groups 10 (value - pmax)
  if out.length > cap then none else some out

/-- `take_groups` from the shift `m` on. -/
def takeGroups : Bytes → ℕ → ℕ → Option (ℕ × ℕ)
  | [], _, _ => none
  | b :: rest, m, value =>
    if m > 56 then none
    else
      let value := value + (b &&& 0x7f).toNat <<< m
      if b &&& 0x80 ≠ 0 then do
        let (value, used) ← takeGroups rest (m + 7) value
        return (value, used + 1)
      else some (value, 1)

def intDecode (buf : Bytes) (prefixBits : ℕ) : Option (ℕ × ℕ) :=
  match buf with
  | [] => none
  | b :: rest =>
    let pmax := prefixMax prefixBits
    let value := b.toNat &&& pmax
    if value < pmax then some (value, 1)
    else do
      let (value, used) ← takeGroups rest 0 value
      return (value, used + 1)

/-! ## Huffman -/

/-- `HUFF_MAXLEN`. -/
def huffMaxlen : ℕ := 30

/-- The symbols by code length and code; 256 is EOS. -/
def hsym : List ℕ :=
  [48, 49, 50, 97, 99, 101, 105, 111, 115, 116, 32, 37, 45, 46, 47, 51, 52, 53, 54, 55, 56, 57,
   61, 65, 95, 98, 100, 102, 103, 104, 108, 109, 110, 112, 114, 117, 58, 66, 67, 68, 69, 70, 71,
   72, 73, 74, 75, 76, 77, 78, 79, 80, 81, 82, 83, 84, 85, 86, 87, 89, 106, 107, 113, 118, 119,
   120, 121, 122, 38, 42, 44, 59, 88, 90, 33, 34, 40, 41, 63, 39, 43, 124, 35, 62, 0, 36, 64, 91,
   93, 126, 94, 125, 60, 96, 123, 92, 195, 208, 128, 130, 131, 162, 184, 194, 224, 226, 153, 161,
   167, 172, 176, 177, 179, 209, 216, 217, 227, 229, 230, 129, 132, 133, 134, 136, 146, 154, 156,
   160, 163, 164, 169, 170, 173, 178, 181, 185, 186, 187, 189, 190, 196, 198, 228, 232, 233, 1,
   135, 137, 138, 139, 140, 141, 143, 147, 149, 150, 151, 152, 155, 157, 158, 165, 166, 168, 174,
   175, 180, 182, 183, 188, 191, 197, 231, 239, 9, 142, 144, 145, 148, 159, 171, 206, 215, 225,
   236, 237, 199, 207, 234, 235, 192, 193, 200, 201, 202, 205, 210, 213, 218, 219, 238, 240, 242,
   243, 255, 203, 204, 211, 212, 214, 221, 222, 223, 241, 244, 245, 246, 247, 248, 250, 251, 252,
   253, 254, 2, 3, 4, 5, 6, 7, 8, 11, 12, 14, 15, 16, 17, 18, 19, 20, 21, 23, 24, 25, 26, 27, 28,
   29, 30, 31, 127, 220, 249, 10, 13, 22, 256]

/-- The first code of each length. -/
def hfirst : List ℕ :=
  [0, 0, 0, 0, 0, 0, 20, 92, 248, 508, 1016, 2042, 4090, 8184, 16380, 32764, 65534, 131068,
   262136, 524272, 1048550, 2097116, 4194258, 8388568, 16777194, 33554412, 67108832, 134217694,
   268435426, 536870910, 1073741820]

/-- Where the symbols of each length start. -/
def hidx : List ℕ :=
  [0, 0, 0, 0, 0, 0, 10, 36, 68, 74, 74, 79, 82, 84, 90, 92, 95, 95, 95, 95, 98, 106, 119, 145,
   174, 186, 190, 205, 224, 253, 253]

/-- The number of codes of each length. -/
def hcnt : List ℕ :=
  [0, 0, 0, 0, 0, 10, 26, 32, 6, 0, 5, 3, 2, 6, 2, 3, 0, 0, 0, 3, 8, 13, 26, 29, 12, 4, 15, 19,
   29, 0, 4]

/-- `hctx`: the bits of the code being read, and the symbols written. -/
structure Hctx where
  acc : ℕ
  nbits : ℕ
  out : Bytes
  ok : Bool

namespace Hctx

/-- `code_ready`; the subtraction of the code is unsigned, so a smaller code is never ready. -/
def codeReady (c : Hctx) : Bool :=
  let first := hfirst.getD c.nbits 0
  hcnt.getD c.nbits 0 != 0 && first ≤ c.acc && c.acc - first < hcnt.getD c.nbits 0

/-- `emit_code`, failing on EOS and on overflow. -/
def emitCode (c : Hctx) (dcap : ℕ) : Hctx :=
  let sym := hsym.getD (hidx.getD c.nbits 0 + (c.acc - hfirst.getD c.nbits 0)) 0
  if sym > 255 ∨ c.out.length ≥ dcap then { c with ok := false, acc := 0, nbits := 0 }
  else { c with out := c.out ++ [UInt8.ofNat sym], acc := 0, nbits := 0 }

def stepBit (c : Hctx) (dcap bit : ℕ) : Hctx :=
  let c := { c with acc := c.acc * 2 + bit, nbits := c.nbits + 1 }
  if c.nbits > huffMaxlen then { c with ok := false }
  else if c.codeReady then c.emitCode dcap
  else c

/-- `step_octet`: most significant bit first, halting on an error. -/
def stepOctet (dcap : ℕ) (c : Hctx) (byte : UInt8) : Hctx :=
  [7, 6, 5, 4, 3, 2, 1, 0].foldl
    (fun c i => if c.ok then c.stepBit dcap ((byte.toNat >>> i) &&& 1) else c) c

/-- `pad_valid`: fewer than eight ones are left over. -/
def padValid (c : Hctx) : Bool := c.nbits < 8 && (c.nbits == 0 || c.acc == 2 ^ c.nbits - 1)

end Hctx

def huffmanDecode (src : Bytes) (dcap : ℕ) : Option Bytes :=
  let c := src.foldl (Hctx.stepOctet dcap) { acc := 0, nbits := 0, out := [], ok := true }
  if c.ok && c.padValid then some c.out else none

/-! ## Strings -/

/-- `len` octets at `off`, Huffman-coded or raw, into `dcap` (`str_value`, `name_octets`). -/
def octetsDecode (buf : Bytes) (off : ℕ) (huff : Bool) (len dcap : ℕ) : Option Bytes :=
  if off + len > buf.length then none
  else if huff then huffmanDecode ((buf.drop off).take len) dcap
  else if len > dcap then none
  else some ((buf.drop off).take len)

/-- `quic_qpack_string_encode`: never Huffman-coded. -/
def stringEncode (cap : ℕ) (src : Bytes) : Option Bytes := do
  let out ← intEncode cap 7 0 src.length
  putBytes out cap src

def stringDecode (buf : Bytes) (dcap : ℕ) : Option (Bytes × ℕ) := do
  let (len, off) ← intDecode buf 7
  let out ← octetsDecode buf off (buf.getD 0 0 &&& 0x80 ≠ 0) len dcap
  return (out, off + len)

/-! ## Field lines -/

/-- `quic_qpack_prefix_encode`: Required Insert Count, sign and Delta Base. -/
def prefixEncode (cap requiredInsertCount : ℕ) (sign : Bool) (deltaBase : ℕ) : Option Bytes := do
  let out ← intEncode cap 8 0 requiredInsertCount
  let rest ← intEncode (cap - out.length) 7 (if sign then 0x80 else 0) deltaBase
  return out ++ rest

/-- `quic_qpack_prefix_decode`: the values and the bytes used. -/
def prefixDecode (buf : Bytes) : Option ((ℕ × Bool × ℕ) × ℕ) := do
  let (requiredInsertCount, off) ← intDecode buf 8
  let (deltaBase, used) ← intDecode (buf.drop off) 7
  return ((requiredInsertCount, buf.getD off 0 &&& 0x80 ≠ 0, deltaBase), off + used)

def indexedEncode (cap index : ℕ) (isStatic : Bool) : Option Bytes :=
  intEncode cap 6 (0x80 ||| (if isStatic then 0x40 else 0)) index

/-- `quic_qpack_indexed_decode`: index, table flag and the bytes used. -/
def indexedDecode (buf : Bytes) : Option (ℕ × Bool × ℕ) :=
  let b := buf.getD 0 0
  if b &&& 0x80 = 0 then none
  else do
    let (index, used) ← intDecode buf 6
    return (index, b &&& 0x40 ≠ 0, used)

def literalNamrefEncode (cap index : ℕ) (isStatic never : Bool) (value : Bytes) : Option Bytes := do
  let out ← intEncode cap 4
    (0x40 ||| (if never then 0x20 else 0) ||| (if isStatic then 0x10 else 0)) index
  let rest ← stringEncode (cap - out.length) value
  return out ++ rest

/-- What a literal with a name reference decodes to. -/
structure NamrefLine where
  index : ℕ
  isStatic : Bool
  never : Bool
  value : Bytes
  used : ℕ

def literalNamrefDecode (buf : Bytes) (vcap : ℕ) : Option NamrefLine :=
  let b := buf.getD 0 0
  if buf.isEmpty ∨ b &&& 0xc0 ≠ 0x40 then none
  else do
    let (index, off) ← intDecode buf 4
    let (value, used) ← stringDecode (buf.drop off) vcap
    return {
      index := index
      isStatic := b &&& 0x10 ≠ 0
      never := b &&& 0x20 ≠ 0
      value := value
      used := off + used }

/-- What a literal with a literal name decodes to. -/
structure LitnameLine where
  never : Bool
  name : Bytes
  value : Bytes
  used : ℕ

def literalNameDecode (buf : Bytes) (ncap vcap : ℕ) : Option LitnameLine :=
  let b := buf.getD 0 0
  if buf.isEmpty ∨ b &&& 0xe0 ≠ 0x20 then none
  else do
    let (len, off) ← intDecode buf 3
    let name ← octetsDecode buf off (b &&& 0x08 ≠ 0) len ncap
    let (value, used) ← stringDecode (buf.drop (off + len)) vcap
    return { never := b &&& 0x10 ≠ 0, name := name, value := value, used := off + len + used }

/-! ## The static table -/

/-- The static table, by index. -/
def staticTable : List (String × String) :=
  [(":authority", ""), (":path", "/"), ("age", "0"), ("content-disposition", ""),
   ("content-length", "0"), ("cookie", ""), ("date", ""), ("etag", ""),
   ("if-modified-since", ""), ("if-none-match", ""), ("last-modified", ""), ("link", ""),
   ("location", ""), ("referer", ""), ("set-cookie", ""), (":method", "CONNECT"),
   (":method", "DELETE"), (":method", "GET"), (":method", "HEAD"), (":method", "OPTIONS"),
   (":method", "POST"), (":method", "PUT"), (":scheme", "http"), (":scheme", "https"),
   (":status", "103"), (":status", "200"), (":status", "304"), (":status", "404"),
   (":status", "503"), ("accept", "*/*"), ("accept", "application/dns-message"),
   ("accept-encoding", "gzip, deflate, br"), ("accept-ranges", "bytes"),
   ("access-control-allow-headers", "cache-control"),
   ("access-control-allow-headers", "content-type"), ("access-control-allow-origin", "*"),
   ("cache-control", "max-age=0"), ("cache-control", "max-age=2592000"),
   ("cache-control", "max-age=604800"), ("cache-control", "no-cache"),
   ("cache-control", "no-store"), ("cache-control", "public, max-age=31536000"),
   ("content-encoding", "br"), ("content-encoding", "gzip"),
   ("content-type", "application/dns-message"), ("content-type", "application/javascript"),
   ("content-type", "application/json"), ("content-type", "application/x-www-form-urlencoded"),
   ("content-type", "image/gif"), ("content-type", "image/jpeg"), ("content-type", "image/png"),
   ("content-type", "text/css"), ("content-type", "text/html; charset=utf-8"),
   ("content-type", "text/plain"), ("content-type", "text/plain;charset=utf-8"),
   ("range", "bytes=0-"), ("strict-transport-security", "max-age=31536000"),
   ("strict-transport-security", "max-age=31536000; includesubdomains"),
   ("strict-transport-security", "max-age=31536000; includesubdomains; preload"),
   ("vary", "accept-encoding"), ("vary", "origin"), ("x-content-type-options", "nosniff"),
   ("x-xss-protection", "1; mode=block"), (":status", "100"), (":status", "204"),
   (":status", "206"), (":status", "302"), (":status", "400"), (":status", "403"),
   (":status", "421"), (":status", "425"), (":status", "500"), ("accept-language", ""),
   ("access-control-allow-credentials", "FALSE"), ("access-control-allow-credentials", "TRUE"),
   ("access-control-allow-headers", "*"), ("access-control-allow-methods", "get"),
   ("access-control-allow-methods", "get, post, options"),
   ("access-control-allow-methods", "options"),
   ("access-control-expose-headers", "content-length"),
   ("access-control-request-headers", "content-type"), ("access-control-request-method", "get"),
   ("access-control-request-method", "post"), ("alt-svc", "clear"), ("authorization", ""),
   ("content-security-policy", "script-src 'none'; object-src 'none'; base-uri 'none'"),
   ("early-data", "1"), ("expect-ct", ""), ("forwarded", ""), ("if-range", ""), ("origin", ""),
   ("purpose", "prefetch"), ("server", ""), ("timing-allow-origin", "*"),
   ("upgrade-insecure-requests", "1"), ("user-agent", ""), ("x-forwarded-for", ""),
   ("x-frame-options", "deny"), ("x-frame-options", "sameorigin")]

def staticGet (index : ℕ) : Option (Bytes × Bytes) :=
  staticTable[index]?.map fun e => (ascii e.1, ascii e.2)

/-- `quic_qpack_static_find`: the first index of a name and value. -/
def staticFind (name value : Bytes) : Option ℕ :=
  staticTable.findIdx? fun e => ascii e.1 == name && ascii e.2 == value

end Http3

end QuicVibe
