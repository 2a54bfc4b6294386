/-! The kinds of value that a board holds, and the values of each kind. -/
namespace TickTree

inductive Kind where
  | bool
  | i32
  | u32
  | i64
  | u64
  | u8
  | f32
  | f64
  | string
  | text
  | char
  | unit
  | list (item : Kind)
  | option (item : Kind)
  | pair (first second : Kind)
  deriving DecidableEq

namespace Kind

@[reducible] def Val : Kind → Type
  | bool => Bool
  | i32 => Int32
  | u32 => UInt32
  | i64 => Int64
  | u64 => UInt64
  | u8 => UInt8
  | f32 => Float32
  | f64 => Float
  | string | text => String
  | char => Char
  | unit => Unit
  | list k => List k.Val
  | option k => Option k.Val
  | pair a b => a.Val × b.Val

def zero : (k : Kind) → k.Val
  | bool => false
  | i32 | u32 | i64 | u64 | u8 => 0
  | f32 => (0 : Float32)
  | f64 => (0 : Float)
  | string | text => ""
  | char => '\x00'
  | unit => ()
  | list _ => []
  | option _ => none
  | pair a b => (a.zero, b.zero)

def name : Kind → String
  | bool => "bool"
  | i32 => "i32"
  | u32 => "u32"
  | i64 => "i64"
  | u64 => "u64"
  | u8 => "u8"
  | f32 => "f32"
  | f64 => "f64"
  | string => "alloc::string::String"
  | text => "&str"
  | char => "char"
  | unit => "()"
  | list k => "alloc::vec::Vec<" ++ k.name ++ ">"
  | option k => "core::option::Option<" ++ k.name ++ ">"
  | pair a b => "(" ++ a.name ++ ", " ++ b.name ++ ")"

end Kind
end TickTree
