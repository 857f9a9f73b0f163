/-!
# Operations

The operations of the instruction stream that do not steer control.
-/

namespace CoroutineIR

/-- An operation without influence on control. -/
inductive Opcode where
  | const | copy | struct | load | store | addrOf | alloc | allocArr | free | freeArr | incref
  | decref | member | setMember | memcpy | memmove | memcmp | lock | unlock | trap | add | sub
  | mul | div | divS | divU | remS | remU | and | or | xor | shl | shrU | shrS | eq | ne | ltS
  | ltU | leS | leU | gtS | gtU | geS | geU | lt | gt | le | ge | min | max | eqz | neg | abs
  | sqrt | ceil | floor | trunc | nearest | wrap | extend | promote | demote
deriving DecidableEq, Repr, Inhabited

namespace Opcode

/-- Every operation. -/
def all : List Opcode :=
  [.const, .copy, .struct, .load, .store, .addrOf, .alloc, .allocArr, .free, .freeArr, .incref,
   .decref, .member, .setMember, .memcpy, .memmove, .memcmp, .lock, .unlock, .trap, .add, .sub,
   .mul, .div, .divS, .divU, .remS, .remU, .and, .or, .xor, .shl, .shrU, .shrS, .eq, .ne, .ltS,
   .ltU, .leS, .leU, .gtS, .gtU, .geS, .geU, .lt, .gt, .le, .ge, .min, .max, .eqz, .neg, .abs,
   .sqrt, .ceil, .floor, .trunc, .nearest, .wrap, .extend, .promote, .demote]

/-- The written name. -/
def mnemonic : Opcode → String
  | const => "const"
  | copy => "copy"
  | struct => "struct"
  | load => "load"
  | store => "store"
  | addrOf => "addr_of"
  | alloc => "alloc"
  | allocArr => "alloc_arr"
  | free => "free"
  | freeArr => "free_arr"
  | incref => "incref"
  | decref => "decref"
  | member => "member"
  | setMember => "set_member"
  | memcpy => "memcpy"
  | memmove => "memmove"
  | memcmp => "memcmp"
  | lock => "lock"
  | unlock => "unlock"
  | trap => "trap"
  | add => "add"
  | sub => "sub"
  | mul => "mul"
  | div => "div"
  | divS => "div_s"
  | divU => "div_u"
  | remS => "rem_s"
  | remU => "rem_u"
  | and => "and"
  | or => "or"
  | xor => "xor"
  | shl => "shl"
  | shrU => "shr_u"
  | shrS => "shr_s"
  | eq => "eq"
  | ne => "ne"
  | ltS => "lt_s"
  | ltU => "lt_u"
  | leS => "le_s"
  | leU => "le_u"
  | gtS => "gt_s"
  | gtU => "gt_u"
  | geS => "ge_s"
  | geU => "ge_u"
  | lt => "lt"
  | gt => "gt"
  | le => "le"
  | ge => "ge"
  | min => "min"
  | max => "max"
  | eqz => "eqz"
  | neg => "neg"
  | abs => "abs"
  | sqrt => "sqrt"
  | ceil => "ceil"
  | floor => "floor"
  | trunc => "trunc"
  | nearest => "nearest"
  | wrap => "wrap"
  | extend => "extend"
  | promote => "promote"
  | demote => "demote"

/-- The operation with the given name. -/
def ofMnemonic? (name : String) : Option Opcode := all.find? fun op => op.mnemonic == name

/-- Whether expressions stay on their side of the operation because it changes memory. -/
def writesMemory : Opcode → Bool
  | store | free | freeArr | decref | unlock => true
  | _ => false

/-- Whether the operation asks the collector for memory. -/
def allocates : Opcode → Bool
  | alloc | allocArr => true
  | _ => false

end Opcode

end CoroutineIR
