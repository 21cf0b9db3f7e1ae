import MuduoServer.StdString

/-!
# String utilities of the HTTP layer

Splitting, percent coding, the two descriptive tables and the check of request
paths, as the static members of `Uitl` compute them.
-/
namespace MuduoServer

open StdString

namespace Uitl

/-- The loop of `split`: `fuel` bounds the iterations, each of which moves the
offset past at least one byte. -/
def splitLoop (src sep : Bytes) : Nat → Nat → List Bytes → Except Fault (List Bytes)
  | 0, _, container => .ok container
  | fuel + 1, offset, container =>
    if offset < src.length then
      match find src sep offset with
      | none => do
        let piece ← substrFrom src offset
        return container ++ [piece]
      | some pos =>
        if offset = pos then splitLoop src sep fuel (pos + sep.length) container
        else do
          let piece ← substr src offset (pos - offset)
          splitLoop src sep fuel (pos + sep.length) (container ++ [piece])
    else .ok container

/-- The filled container and the returned size. -/
def split (src sep : Bytes) (container : List Bytes) : Except Fault (List Bytes × Nat) :=
  if sep = [] then .ok (container, 0)
  else do
    let v ← splitLoop src sep src.length 0 container
    return (v, v.length)

/-- The upper-case digit `%X` prints. -/
def hexDigit (n : UInt8) : UInt8 := if n < 10 then 48 + n else 55 + n

def urlEnCodeByte (isSpaceToPlus : Bool) (e : UInt8) : Bytes :=
  if e = 45 ∨ e = 95 ∨ e = 126 ∨ e = 46 ∨ isAlnum e then [e]
  else if isSpaceToPlus ∧ e = 32 then [43]
  else [37, hexDigit (e / 16), hexDigit (e % 16)]

def urlEnCode (src : Bytes) (isSpaceToPlus : Bool) : Bytes :=
  src.flatMap (urlEnCodeByte isSpaceToPlus)

/-- Every letter counts as a digit here, not only those below `G`. -/
def conv (a : UInt8) : Int :=
  if 48 ≤ a ∧ a ≤ 57 then a.toNat - 48
  else if 97 ≤ a ∧ a ≤ 122 then a.toNat - 97 + 10
  else if 65 ≤ a ∧ a ≤ 90 then a.toNat - 65 + 10
  else -1

/-- `ret += tmp` keeps the low byte of `(first << 4) + second`. -/
def decodedByte (first second : Int) : UInt8 := UInt8.ofNat ((16 * first + second) % 256).toNat

def urlDecode : Bytes → Bool → Bytes
  | [], _ => []
  | c :: rest, isSpaceToPlus =>
    if c = 43 ∧ isSpaceToPlus then 32 :: urlDecode rest isSpaceToPlus
    else if c = 37 then
      match rest with
      | a :: b :: rest => decodedByte (conv a) (conv b) :: urlDecode rest isSpaceToPlus
      | _ => []
    else c :: urlDecode rest isSpaceToPlus

def statuTable : List (Int × String) :=
  [(100, "Continue"), (101, "Switching Protocol"), (102, "Processing"), (103, "Early Hints"),
    (200, "OK"), (201, "Created"), (202, "Accepted"), (203, "Non-Authoritative Information"),
    (204, "No Content"), (205, "Reset Content"), (206, "Partial Content"), (207, "Multi-Status"),
    (208, "Already Reported"), (226, "IM Used"), (300, "Multiple Choice"),
    (301, "Moved Permanently"), (302, "Found"), (303, "See Other"), (304, "Not Modified"),
    (305, "Use Proxy"), (306, "unused"), (307, "Temporary Redirect"), (308, "Permanent Redirect"),
    (400, "Bad Request"), (401, "Unauthorized"), (402, "Payment Required"), (403, "Forbidden"),
    (404, "Not Found"), (405, "Method Not Allowed"), (406, "Not Acceptable"),
    (407, "Proxy Authentication Required"), (408, "Request Timeout"), (409, "Conflict"),
    (410, "Gone"), (411, "Length Required"), (412, "Precondition Failed"),
    (413, "Payload Too Large"), (414, "URI Too Long"), (415, "Unsupported Media Type"),
    (416, "Range Not Satisfiable"), (417, "Expectation Failed"), (418, "I'm a teapot"),
    (421, "Misdirected Request"), (422, "Unprocessable Entity"), (423, "Locked"),
    (424, "Failed Dependency"), (425, "Too Early"), (426, "Upgrade Required"),
    (428, "Precondition Required"), (429, "Too Many Requests"),
    (431, "Request Header Fields Too Large"), (451, "Unavailable For Legal Reasons"),
    (501, "Not Implemented"), (502, "Bad Gateway"), (503, "Service Unavailable"),
    (504, "Gateway Timeout"), (505, "HTTP Version Not Supported"),
    (506, "Variant Also Negotiates"), (507, "Insufficient Storage"), (508, "Loop Detected"),
    (510, "Not Extended"), (511, "Network Authentication Required")]

def statuDesc (code : Int) : Bytes :=
  match statuTable.lookup code with
  | some desc => ascii desc
  | none => ascii "unknown"

def mimeTable : List (String × String) :=
  [(".aac", "audio/aac"), (".abw", "application/x-abiword"), (".arc", "application/x-freearc"),
    (".avi", "video/x-msvideo"), (".azw", "application/vnd.amazon.ebook"),
    (".bin", "application/octet-stream"), (".bmp", "image/bmp"), (".bz", "application/x-bzip"),
    (".bz2", "application/x-bzip2"), (".csh", "application/x-csh"), (".css", "text/css"),
    (".csv", "text/csv"), (".doc", "application/msword"),
    (".docx", "application/vnd.openxmlformats-officedocument.wordprocessingml.document"),
    (".eot", "application/vnd.ms-fontobject"), (".epub", "application/epub+zip"),
    (".gif", "image/gif"), (".htm", "text/html"), (".html", "text/html"),
    (".ico", "image/vnd.microsoft.icon"), (".ics", "text/calendar"),
    (".jar", "application/java-archive"), (".jpeg", "image/jpeg"), (".jpg", "image/jpeg"),
    (".js", "text/javascript"), (".json", "application/json"), (".jsonld", "application/ld+json"),
    (".mid", "audio/midi"), (".midi", "audio/x-midi"), (".mjs", "text/javascript"),
    (".mp3", "audio/mpeg"), (".mpeg", "video/mpeg"),
    (".mpkg", "application/vnd.apple.installer+xml"),
    (".odp", "application/vnd.oasis.opendocument.presentation"),
    (".ods", "application/vnd.oasis.opendocument.spreadsheet"),
    (".odt", "application/vnd.oasis.opendocument.text"), (".oga", "audio/ogg"),
    (".ogv", "video/ogg"), (".ogx", "application/ogg"), (".otf", "font/otf"),
    (".png", "image/png"), (".pdf", "application/pdf"), (".ppt", "application/vnd.ms-powerpoint"),
    (".pptx", "application/vnd.openxmlformats-officedocument.presentationml.presentation"),
    (".rar", "application/x-rar-compressed"), (".rtf", "application/rtf"),
    (".sh", "application/x-sh"), (".svg", "image/svg+xml"),
    (".swf", "application/x-shockwave-flash"), (".tar", "application/x-tar"),
    (".tif", "image/tiff"), (".tiff", "image/tiff"), (".ttf", "font/ttf"), (".txt", "text/plain"),
    (".vsd", "application/vnd.visio"), (".wav", "audio/wav"), (".weba", "audio/webm"),
    (".webm", "video/webm"), (".webp", "image/webp"), (".woff", "font/woff"),
    (".woff2", "font/woff2"), (".xhtml", "application/xhtml+xml"),
    (".xls", "application/vnd.ms-excel"),
    (".xlsx", "application/vnd.openxmlformats-officedocument.spreadsheetml.sheet"),
    (".xml", "application/xml"), (".xul", "application/vnd.mozilla.xul+xml"),
    (".zip", "application/zip"), (".3gp", "video/3gpp"), (".3g2", "video/3gpp2"),
    (".7z", "application/x-7z-compressed")]

/-- The suffix from the last `.` on, in lower case, decides the type. -/
def exMime (filename : Bytes) : Bytes :=
  let sub := (filename.reverse.takeWhile (· ≠ 46)).reverse
  if sub.length = filename.length then ascii "application/octet-stream"
  else
    match mimeTable.find? (fun e => ascii e.1 = 46 :: sub.map toLower) with
    | some (_, mime) => ascii mime
    | none => ascii "application/octet-stream"

def slash : UInt8 := 47
def dot : Bytes := ascii "."
def dotdot : Bytes := ascii ".."

/-- The level counter of `VaildPath`, which every component other than `..` raises. -/
def levels : Int → List Bytes → Bool
  | _, [] => true
  | level, e :: v =>
    if e = dotdot then (if level - 1 < 0 then false else levels (level - 1) v)
    else levels (level + 1) v

def vaildPath (path : Bytes) : Except Fault Bool := do
  let (v, _) ← split path [slash] []
  return levels 0 v

end Uitl
end MuduoServer
