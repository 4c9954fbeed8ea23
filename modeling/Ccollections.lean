import Ccollections.Cbstmap.Theorems
import Ccollections.Chashmap.Theorems.ByteHash
import Ccollections.Chashmap.Theorems.OpenAddressing
import Ccollections.Chashmap.Theorems.Window
import Ccollections.Chttp.Theorems.Base64
import Ccollections.Chttp1.Theorems
import Ccollections.Chttpclient.Theorems.Connections
import Ccollections.Chttpclient.Theorems.Exchange
import Ccollections.Chttpclient.Theorems.Requests
import Ccollections.Chttpserver.Theorems
import Ccollections.Cjson.Theorems
import Ccollections.Clogger.Theorems
import Ccollections.Clrucache.Theorems
import Ccollections.Cmempool.Theorems
import Ccollections.Cmempool.Theorems.Ranged
import Ccollections.Cpintable.Theorems
import Ccollections.Csort.Theorems
import Ccollections.Cstring.Theorems
import Ccollections.Cthreadcomm.Theorems
import Ccollections.Cthreadpool.Theorems
import Ccollections.Cvector.Theorems
import Ccollections.Cyaml.Theorems
