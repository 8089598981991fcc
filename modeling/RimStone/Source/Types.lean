/-!
# Types of variables

The types that a program's variables have, by the names of `rim.h`. A variable with process scope has a type of its
own, which stands for the same values.
-/

namespace RimStone

/-- `RIM_DEF..` -/
inductive DefType where
  | none | string | number | double | broken | json | hash | arraystring | fifo | lifo | encrypt | file | xml | service
  | tree | treecursor | hashstatic | treestatic | list | arraystringstatic | liststatic | bool | stringstatic
  | numberstatic | msg | boolstatic | arraynumberstatic | arrayboolstatic | arraynumber | arraybool | doublestatic
  | arraydouble | arraydoublestatic | dir | unkn
  deriving DecidableEq, Repr

def DefType.base : DefType → DefType
  | .stringstatic => .string
  | .numberstatic => .number
  | .doublestatic => .double
  | .boolstatic => .bool
  | .hashstatic => .hash
  | .arraystringstatic => .arraystring
  | .arraynumberstatic => .arraynumber
  | .arraydoublestatic => .arraydouble
  | .arrayboolstatic => .arraybool
  | .treestatic => .tree
  | .liststatic => .list
  | t => t

/-- `cmp_type`: the same type, or the one with and the other without process scope -/
def cmpType (t1 t2 : DefType) : Bool := t1.base == t2.base

end RimStone
