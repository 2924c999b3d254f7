/-!
# Keywords of Zed

The twenty-one reserved words. Each constructor is named by the word itself. Seven of them close a
block or a compound statement; recovery from a broken statement always stops at one of those.
-/

set_option autoImplicit false

namespace Zed

/-- A reserved word of Zed. -/
inductive Keyword where
  | PROG | ENDPROG | DO | ENDDO | OUT | IN | IF | OTHERWISE | ENDIF | SWITCH | ENDSWITCH
  | FOR | FROM | TO | BY | ENDFOR | WHEN | ENDWHEN | REPEAT | UNTIL | ENDREPEAT
  deriving DecidableEq, Repr

namespace Keyword

/-- All keywords, in the order of their declaration. -/
def all : List Keyword :=
  [PROG, ENDPROG, DO, ENDDO, OUT, IN, IF, OTHERWISE, ENDIF, SWITCH, ENDSWITCH,
    FOR, FROM, TO, BY, ENDFOR, WHEN, ENDWHEN, REPEAT, UNTIL, ENDREPEAT]

/-- The word as it stands in a source text. -/
def spelling : Keyword → String
  | PROG => "PROG"
  | ENDPROG => "ENDPROG"
  | DO => "DO"
  | ENDDO => "ENDDO"
  | OUT => "OUT"
  | IN => "IN"
  | IF => "IF"
  | OTHERWISE => "OTHERWISE"
  | ENDIF => "ENDIF"
  | SWITCH => "SWITCH"
  | ENDSWITCH => "ENDSWITCH"
  | FOR => "FOR"
  | FROM => "FROM"
  | TO => "TO"
  | BY => "BY"
  | ENDFOR => "ENDFOR"
  | WHEN => "WHEN"
  | ENDWHEN => "ENDWHEN"
  | REPEAT => "REPEAT"
  | UNTIL => "UNTIL"
  | ENDREPEAT => "ENDREPEAT"

/-- The keyword spelled `word`, if there is one. Case matters. -/
def ofSpelling? (word : String) : Option Keyword :=
  all.find? (·.spelling == word)

/-- The keywords that close a block or a compound statement. -/
def isCloser : Keyword → Bool
  | ENDPROG | ENDDO | ENDIF | ENDSWITCH | ENDFOR | ENDWHEN | ENDREPEAT => true
  | _ => false

end Keyword

end Zed
