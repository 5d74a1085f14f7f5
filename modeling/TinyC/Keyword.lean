/-!
# Reserved words

The reserved words of C and of its common dialects. A program uses six of them; the others only
keep a word from being an identifier.

Each keyword has a spelling, by which it is recognised, and a tag, by which listings name it.
-/

namespace TinyC

inductive Keyword
  | auto | break_ | case | char | const | continue_
  | default | do_ | double | else_ | enum | extern_
  | float | for_ | goto | if_ | inline | int
  | long | register | restrict | return_ | short | signed
  | sizeof | static | struct | switch | typedef | typeof
  | typeofUnqual | union | unsigned | void | volatile | while_
  | alignas | alignof | atomic | bool | complex | generic
  | noreturn | c11StaticAssert | threadLocal | msAsm | msBased | msCdecl
  | msDeclspec | msExcept | msFastcall | msFinally | msInline | msInt16
  | msInt32 | msInt64 | msInt8 | msLeave | msRestrict | msStdcall
  | msTry | gnuTypeof | gnuTypeofUnqual | dllexport | dllimport | naked
  | staticAssert | thread
deriving DecidableEq, Repr

namespace Keyword

/-- Every keyword, in the order of the table. -/
def all : List Keyword :=
  [.auto, .break_, .case, .char, .const, .continue_, .default, .do_, .double, .else_, .enum,
   .extern_, .float, .for_, .goto, .if_, .inline, .int, .long, .register, .restrict, .return_,
   .short, .signed, .sizeof, .static, .struct, .switch, .typedef, .typeof, .typeofUnqual, .union,
   .unsigned, .void, .volatile, .while_, .alignas, .alignof, .atomic, .bool, .complex, .generic,
   .noreturn, .c11StaticAssert, .threadLocal, .msAsm, .msBased, .msCdecl, .msDeclspec, .msExcept,
   .msFastcall, .msFinally, .msInline, .msInt16, .msInt32, .msInt64, .msInt8, .msLeave,
   .msRestrict, .msStdcall, .msTry, .gnuTypeof, .gnuTypeofUnqual, .dllexport, .dllimport, .naked,
   .staticAssert, .thread]

/-- The word that spells the keyword. -/
def spelling : Keyword → String
  | .auto => "auto"
  | .break_ => "break"
  | .case => "case"
  | .char => "char"
  | .const => "const"
  | .continue_ => "continue"
  | .default => "default"
  | .do_ => "do"
  | .double => "double"
  | .else_ => "else"
  | .enum => "enum"
  | .extern_ => "extern"
  | .float => "float"
  | .for_ => "for"
  | .goto => "goto"
  | .if_ => "if"
  | .inline => "inline"
  | .int => "int"
  | .long => "long"
  | .register => "register"
  | .restrict => "restrict"
  | .return_ => "return"
  | .short => "short"
  | .signed => "signed"
  | .sizeof => "sizeof"
  | .static => "static"
  | .struct => "struct"
  | .switch => "switch"
  | .typedef => "typedef"
  | .typeof => "typeof"
  | .typeofUnqual => "typeof_unqual"
  | .union => "union"
  | .unsigned => "unsigned"
  | .void => "void"
  | .volatile => "volatile"
  | .while_ => "while"
  | .alignas => "_Alignas"
  | .alignof => "_Alignof"
  | .atomic => "_Atomic"
  | .bool => "_Bool"
  | .complex => "_Complex"
  | .generic => "_Generic"
  | .noreturn => "_Noreturn"
  | .c11StaticAssert => "_Static_assert"
  | .threadLocal => "_Thread_local"
  | .msAsm => "__asm"
  | .msBased => "__based"
  | .msCdecl => "__cdecl"
  | .msDeclspec => "__declspec"
  | .msExcept => "__except"
  | .msFastcall => "__fastcall"
  | .msFinally => "__finally"
  | .msInline => "__inline"
  | .msInt16 => "__int16"
  | .msInt32 => "__int32"
  | .msInt64 => "__int64"
  | .msInt8 => "__int8"
  | .msLeave => "__leave"
  | .msRestrict => "__restrict"
  | .msStdcall => "__stdcall"
  | .msTry => "__try"
  | .gnuTypeof => "__typeof__"
  | .gnuTypeofUnqual => "__typeof_unqual__"
  | .dllexport => "dllexport"
  | .dllimport => "dllimport"
  | .naked => "naked"
  | .staticAssert => "static_assert"
  | .thread => "thread"

/-- The name of the keyword in listings. -/
def tag : Keyword → String
  | .auto => "Auto"
  | .break_ => "Break"
  | .case => "Case"
  | .char => "Char"
  | .const => "Const"
  | .continue_ => "Continue"
  | .default => "Default"
  | .do_ => "Do"
  | .double => "Double"
  | .else_ => "Else"
  | .enum => "Enum"
  | .extern_ => "Extern"
  | .float => "Float"
  | .for_ => "For"
  | .goto => "Goto"
  | .if_ => "If"
  | .inline => "Inline"
  | .int => "Int"
  | .long => "Long"
  | .register => "Register"
  | .restrict => "Restrict"
  | .return_ => "Return"
  | .short => "Short"
  | .signed => "Signed"
  | .sizeof => "Sizeof"
  | .static => "Static"
  | .struct => "Struct"
  | .switch => "Switch"
  | .typedef => "Typedef"
  | .typeof => "Typeof"
  | .typeofUnqual => "TypeofUnqual"
  | .union => "Union"
  | .unsigned => "Unsigned"
  | .void => "Void"
  | .volatile => "Volatile"
  | .while_ => "While"
  | .alignas => "Alignas"
  | .alignof => "Alignof"
  | .atomic => "Atomic"
  | .bool => "Bool"
  | .complex => "Complex"
  | .generic => "Generic"
  | .noreturn => "Noreturn"
  | .c11StaticAssert => "C11StaticAssert"
  | .threadLocal => "ThreadLocal"
  | .msAsm => "MsAsm"
  | .msBased => "MsBased"
  | .msCdecl => "MsCdecl"
  | .msDeclspec => "MsDeclspec"
  | .msExcept => "MsExcept"
  | .msFastcall => "MsFastcall"
  | .msFinally => "MsFinally"
  | .msInline => "MsInline"
  | .msInt16 => "MsInt16"
  | .msInt32 => "MsInt32"
  | .msInt64 => "MsInt64"
  | .msInt8 => "MsInt8"
  | .msLeave => "MsLeave"
  | .msRestrict => "MsRestrict"
  | .msStdcall => "MsStdcall"
  | .msTry => "MsTry"
  | .gnuTypeof => "GnuTypeof"
  | .gnuTypeofUnqual => "GnuTypeofUnqual"
  | .dllexport => "Dllexport"
  | .dllimport => "Dllimport"
  | .naked => "Naked"
  | .staticAssert => "StaticAssert"
  | .thread => "Thread"

/-- The keyword that a word spells, if it is reserved. Case matters. -/
def ofWord? (word : String) : Option Keyword :=
  all.find? (·.spelling = word)

theorem mem_all (k : Keyword) : k ∈ all := by
  cases k <;> decide

theorem spelling_of_ofWord? {word : String} {k : Keyword} (h : ofWord? word = some k) :
    k.spelling = word := by
  simpa using List.find?_some h

end Keyword

end TinyC
