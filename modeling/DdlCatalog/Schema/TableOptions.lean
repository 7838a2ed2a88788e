import DdlCatalog.Schema.Definition

/-!
The options of a table, each of which has one value; the last one written counts.
-/

namespace DdlCatalog

structure TableOptions where
  engine : Option String := none
  autoincrement : Option UInt64 := none
  avgRowLength : Option UInt64 := none
  charset : Option String := none
  checksum : Option Bool := none
  collation : Option String := none
  comment : Option String := none
  compression : Option String := none
  connection : Option String := none
  dataDirectory : Option String := none
  indexDirectory : Option String := none
  delayKeyWrite : Option Bool := none
  encryption : Option Bool := none
  insertMethod : Option String := none
  keyBlockSize : Option UInt64 := none
  maxRows : Option UInt64 := none
  minRows : Option UInt64 := none
  packKeys : Option String := none
  password : Option String := none
  rowFormat : Option String := none
  tablespace : Option String := none
  union : List String := []
  deriving DecidableEq

namespace TableOptions

def set (o : TableOptions) : TableOption → TableOptions
  | .engine name => { o with engine := some name }
  | .autoIncrement n => { o with autoincrement := some n }
  | .avgRowLength n => { o with avgRowLength := some n }
  | .charset name => { o with charset := some name }
  | .checksum on => { o with checksum := some on }
  | .collation name => { o with collation := some name }
  | .comment text => { o with comment := some text }
  | .compression name => { o with compression := some name }
  | .connection text => { o with connection := some text }
  | .dataDirectory path => { o with dataDirectory := some path }
  | .indexDirectory path => { o with indexDirectory := some path }
  | .delayKeyWrite on => { o with delayKeyWrite := some on }
  | .encryption on => { o with encryption := some on }
  | .insertMethod name => { o with insertMethod := some name }
  | .keyBlockSize n => { o with keyBlockSize := some n }
  | .maxRows n => { o with maxRows := some n }
  | .minRows n => { o with minRows := some n }
  | .packKeys mode => { o with packKeys := some mode }
  | .password text => { o with password := some text }
  | .rowFormat name => { o with rowFormat := some name }
  | .tablespace name => { o with tablespace := some name }
  | .union tables => { o with union := tables }

/-- Options set one after another on top of the present ones. -/
def merge (o : TableOptions) (options : List TableOption) : TableOptions := options.foldl set o

def ofList (options : List TableOption) : TableOptions := merge {} options

def isEmpty (o : TableOptions) : Bool := o == {}

end TableOptions

end DdlCatalog
