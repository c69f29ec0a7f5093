/-! # Zig-zag numbers

Signed numbers of small size become small unsigned ones: 0, -1, 1, -2, 2 are written as
0, 1, 2, 3, 4.
-/

namespace WireColumns.ZigZag

def decode32 (n : UInt32) : Int32 := (n >>> 1).toInt32 ^^^ -(n &&& 1).toInt32

def decode64 (n : UInt64) : Int64 := (n >>> 1).toInt64 ^^^ -(n &&& 1).toInt64

def encode32 (n : Int32) : UInt32 := ((n <<< 1) ^^^ (n >>> 31)).toUInt32

def encode64 (n : Int64) : UInt64 := ((n <<< 1) ^^^ (n >>> 63)).toUInt64

end WireColumns.ZigZag
